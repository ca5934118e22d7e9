import Rendition.Palette
import Rendition.Play.Player

namespace Rendition

namespace Performance

def isFinalShort (duration : Float) (r : Remark) : Bool :=
  match r.finding with
  | .barLength expected actual time => (time - duration).abs < barTolerance && actual < expected
  | _ => false

/-- A track may end inside a bar: the last such remark is dropped. -/
def dropFinalShort (duration : Float) (remarks : List Remark) : List Remark :=
  (remarks.reverse.eraseP (isFinalShort duration)).reverse

def finalRemarks (settings : Settings) (duration : Float) (instrument : String) : List Remark :=
  let fades := [settings.fadeIn, settings.fadeOut].filter fun fade ↦ duration < fade
  fades.map (fun fade ↦ { finding := .fadeOverLong fade duration }) ++
    if Palette.contains instrument then [] else [{ finding := .unknownInstrument instrument }]

end Performance

def playTrack (stage : Stage) (settings : Settings) (symbols : List Symbol) :
    Play (Settings × Passage) := do
  let scope := Scope.enter stage settings (← get) false
  let scope ← scope.playFrom stage (playerOf stage (stage.repertoire.depthOf symbols)) 0 symbols
  return (scope.settings, scope.conclude (← get))

/-- Plays the content of a track on an instrument. The name of the track, if it has one,
counts as being played. -/
def perform (repertoire : Repertoire) (settings : Settings) (instrument : Instrument) (id : String)
    (name : Option String) (content : List Symbol) : Option (Except Fault Performance) :=
  let play := playTrack ⟨repertoire, instrument.pitchNames⟩ settings (instrument.opening ++ content)
  (play.run.run { active := name.toList }).map fun (answer, session) ↦
    answer.map fun (last, passage) ↦
      let duration := passage.progress.duration
      repertoire.plugins.complete
        { id
          instrument := instrument.name
          events := session.eventsAt passage.events
          marks := passage.marks
          remarks := Performance.dropFinalShort duration passage.remarks ++
            Performance.finalRemarks last duration instrument.name
          progress := passage.progress
          effects := last.effects }

end Rendition
