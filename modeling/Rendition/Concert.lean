import Rendition.Play.Performance
import Rendition.Score.Document

namespace Rendition

/-- A section with at least one track to play. -/
structure SectionPerformance where
  tracks : List Performance
  remarks : List Remark
  settings : Settings
  deriving DecidableEq, Repr

namespace SectionPerformance

def track? (s : SectionPerformance) (id : String) : Option Performance := s.tracks.find? (·.id = id)

def durationTolerance : Float := 1e-10

def lowest : Float := -1.7976931348623157e308

/-- Tracks that do not all end together. -/
def mismatch? (durations : List Float) : Option Finding :=
  let longest := durations.foldl Number.larger lowest
  if durations.all fun d ↦ (d - longest).abs < durationTolerance then none
  else some (.diffDuration longest durations)

end SectionPerformance

/-- Something done with a repertoire. The themes it adds stay when a fault ends it. -/
abbrev Concert := ExceptT Fault (StateT Repertoire Option)

namespace Concert

def applyCalls (settings : Settings) (calls : List Call) : Concert (Settings × List Remark) := do
  let stage : Stage := ⟨← get, ∅⟩
  let symbols := calls.map Call.symbol
  let play := (Scope.enter stage settings {} false).playFrom stage
    (playerOf stage (stage.repertoire.depthOf symbols)) 0 symbols
  match play.run.run {} with
  | none => fun _ ↦ none
  | some (.ok scope, _) => return (scope.settings, scope.remarks)
  | some (.error fault, _) => throw fault

abbrev Counts := Table String Nat

def trackId (track : Track) (instrument : Instrument) (count : Nat) : String :=
  if track.id.isEmpty then instrument.name ++ "#" ++ toString count
  else track.id ++ "#" ++ instrument.name

def playInstruments (settings : Settings) (track : Track) :
    List Instrument → Counts → Concert (List Performance × Counts)
  | [], counts => return ([], counts)
  | instrument :: rest, counts => do
    let count := (counts.find? instrument.name).getD 0 + 1
    let counts := counts.insert instrument.name count
    match perform (← get) settings instrument (trackId track instrument count) track.name
      track.content with
    | none => fun _ ↦ none
    | some (.error fault) => throw fault
    | some (.ok performance) =>
      let (performances, counts) ← playInstruments settings track rest counts
      return (performance :: performances, counts)

/-- Plays tracks in turn, each on its instruments, a piano if it has none. Named ones
become themes first. -/
def playTracks (settings : Settings) : List Track → Counts → Concert (List Performance)
  | [], _ => return []
  | track :: rest, counts => do
    if let some name := track.name then modify (·.defineTheme name track.content)
    let (performances, counts) ← playInstruments settings track track.players counts
    return performances ++ (← playTracks settings rest counts)

def playSection (global : Settings) (s : Section) :
    Concert (Settings × Option SectionPerformance) := do
  let (global, prologRemarks) ← applyCalls global s.prolog
  let (settings, remarks) ← applyCalls global s.settings
  let tracks ← playTracks settings s.tracks ∅
  if tracks.isEmpty then return (global, none)
  let mismatch := SectionPerformance.mismatch? (tracks.map (·.progress.duration))
  let remarks := prologRemarks ++ remarks ++ (mismatch.map fun finding ↦ { finding }).toList
  return (global, some { tracks, remarks, settings })

def playSections (global : Settings) : List Section → Concert (List SectionPerformance)
  | [] => return []
  | s :: rest => do
    let (global, performance) ← playSection global s
    return performance.toList ++ (← playSections global rest)

def play (score : Score) : Concert (List SectionPerformance) := do
  playSections ((← get).plugins.setup {}) score.sections

end Concert

end Rendition
