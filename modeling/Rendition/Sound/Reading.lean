import Rendition.Repertoire.Basic
import Rendition.Score.Document

namespace Rendition

def majorScale : List Int32 := [0, 2, 4, 5, 7, 9, 11]

def semitones? (step : UInt8) : Option Int32 :=
  if step = 0 then none else majorScale[step.toNat - 1]?

def shiftOf : Char → Int32
  | '#' => 1
  | 'b' => -1
  | '\'' => 12
  | ',' => -12
  | _ => 0

def shiftSum (shifts : String) : Int32 := shifts.toList.foldl (fun sum c ↦ sum + shiftOf c) 0

def gainOf (settings : Settings) (dynamics : String) : Float :=
  dynamics.toList.foldl
    (fun gain c ↦ if c = '>' then gain * settings.accent else if c = ':' then gain * settings.light
      else gain) 1

structure PitchContext where
  settings : Settings
  chords : Table Char Chord
  names : PitchNames := ∅
  trace : Trace := []
  /-- The operators of the note, applied before those of the pitch. -/
  shifts : String := ""
  dynamics : String := ""

namespace WrittenPitch

variable (pitch : WrittenPitch) (context : PitchContext)

def delta : Int32 := shiftSum context.shifts + shiftSum pitch.shifts

def gain : Float :=
  gainOf context.settings context.dynamics * gainOf context.settings pitch.dynamics

def keyRoot (settings : Settings) : Int32 := settings.key.head?.getD 0

def scaleTone? (step : UInt8) : Option Tone :=
  (semitones? step).map fun n ↦
    { offset := keyRoot context.settings + n + pitch.delta context, gain := pitch.gain context }

def replay (tone : Tone) : Tone :=
  { (if tone.fixed then tone else tone.shift (pitch.delta context)) with
    gain := tone.gain * pitch.gain context }

/-- The recorded entry that the trace depth of the settings looks back to. -/
def recalled? : Except Finding (List Tone) :=
  let depth := context.settings.trace
  let recorded := context.trace.length
  if depth = 0 ∨ recorded < depth then .error (.noPrevious depth recorded)
  else .ok (context.trace[recorded - depth]?.getD [])

def tones : Except Finding (List Tone) :=
  match pitch.degree with
  | .rest | .unpitched => .ok []
  | .retrace => do return (← recalled? context).map (pitch.replay context)
  | .scale step => .ok (pitch.scaleTone? context step).toList
  | .named name => match context.names.find? name with
    | some (.fixed offsets) =>
      .ok (offsets.map fun offset ↦ { offset, gain := pitch.gain context, fixed := true })
    | some (.degrees steps) => .ok (steps.filterMap (pitch.scaleTone? context))
    | none => .error (.unknownPitch name)

/-- A fixed tone sounds once and any other in each voice of the key. -/
def voices (settings : Settings) (tone : Tone) : List Sound :=
  if tone.fixed then [⟨some tone.offset, settings.volumeOf 0 * tone.gain, true⟩]
  else settings.key.mapIdx fun voice offset ↦
    ⟨some (Semitones.add tone.offset (offset - keyRoot settings)),
      settings.volumeOf voice * tone.gain, false⟩

def hits : List Sound :=
  (List.range (max 1 context.settings.key.length)).map fun voice ↦
    ⟨none, context.settings.volumeOf voice * pitch.gain context, false⟩

end WrittenPitch

/-- The sounds of a written pitch, the tones to be recorded and what was found amiss. -/
structure PitchReading where
  sounds : List Sound := []
  tones : List Tone := []
  findings : List Finding := []
  deriving DecidableEq, Repr

def WrittenPitch.read (pitch : WrittenPitch) (context : PitchContext) : PitchReading :=
  match pitch.degree with
  | .rest => {}
  | .unpitched => { sounds := pitch.hits context }
  | _ => match pitch.tones context with
    | .error finding => { findings := [finding] }
    | .ok base =>
      let (tones, findings) := Chord.applyAll context.chords.find? pitch.chords.toList base
      { sounds := tones.flatMap (voices context.settings), tones, findings }

end Rendition
