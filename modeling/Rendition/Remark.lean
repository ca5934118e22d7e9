namespace Rendition

structure Place where
  bar : Nat := 0
  index : Nat := 0
  deriving DecidableEq, Repr

inductive Finding where
  | noPrevious (expected actual : Nat)
  | reduplicate (offsets : List Int32)
  | volumeLimit (volumes : List Float)
  | chordRange (chord : Char) (bound index : Int)
  | onFixedNote (chord : Char)
  | unusedNote (chord : Char) (unused : List Nat)
  | unknownChord (chord : Char)
  | unknownPitch (name : String)
  | barLength (expected actual time : Float)
  | unexpectedCoda
  | unexpectedVolta (order : List UInt32)
  | multiCoda
  | fadeOverLong (fade duration : Float)
  | unknownInstrument (name : String)
  | unknownFunction (name : String)
  | recursiveTrack (name : String)
  | badExpression (source message : String)
  | function (name message : String)
  | diffDuration (longest : Float) (durations : List Float)
  deriving DecidableEq, Repr

def Finding.name : Finding → String
  | .noPrevious .. => "NoPrevious"
  | .reduplicate .. => "Reduplicate"
  | .volumeLimit .. => "VolumeLimit"
  | .chordRange .. => "ChordRange"
  | .onFixedNote .. => "OnFixedNote"
  | .unusedNote .. => "UnusedNote"
  | .unknownChord .. => "UnknownChord"
  | .unknownPitch .. => "UnknownPitch"
  | .barLength .. => "BarLength"
  | .unexpectedCoda => "UnexpectedCoda"
  | .unexpectedVolta .. => "UnexpectedVolta"
  | .multiCoda => "MultiCoda"
  | .fadeOverLong .. => "FadeOverLong"
  | .unknownInstrument .. => "UnknownInstrument"
  | .unknownFunction .. => "UnknownFunction"
  | .recursiveTrack .. => "RecursiveTrack"
  | .badExpression .. => "BadExpression"
  | .function .. => "Function"
  | .diffDuration .. => "DiffDuration"

/-- A finding with the places that lead to it, in the outermost passage first. One about a whole
track or section has no place. -/
structure Remark where
  finding : Finding
  path : List Place := []
  deriving DecidableEq, Repr

namespace Remark

def located (finding : Finding) (place : Place) : Remark := ⟨finding, [place]⟩

/-- The remark as the passage around makes it, in which the inner one stands at `place` and begins
at `time`. Only a bar length tells a time. -/
def within (r : Remark) (place : Place) (time : Float) : Remark where
  finding := match r.finding with
    | .barLength expected actual t => .barLength expected actual (t + time)
    | finding => finding
  path := place :: r.path

def innermost? (r : Remark) : Option Place := r.path.getLast?

end Remark

end Rendition
