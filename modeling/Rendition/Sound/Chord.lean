import Rendition.Remark
import Rendition.Number.Exact
import Rendition.Sound.Event

namespace Rendition

namespace Semitones

def lowest : Int := -0x80000000

def highest : Int := 0x7fffffff

/-- The sum, or the bound that it passes. -/
def add (a b : Int32) : Int32 := Int32.ofInt (Number.clamp lowest highest (a.toInt + b.toInt))

end Semitones

def Tone.shift (tone : Tone) (delta : Int32) : Tone :=
  { tone with offset := Semitones.add tone.offset delta }

/-- Copies the tones from `head` to `tail`, moved by `delta`. Negative indices count from the
end. -/
structure ChordRule where
  head : Int32
  tail : Int32
  delta : Int32
  deriving DecidableEq, Repr

abbrev Chord := List ChordRule

namespace Chord

/-- The place in a list of the given length that an index stands for, or the bound it breaks. -/
def place (length : Nat) (index : Int) : Except Int Nat :=
  if index < -length then .error (-length)
  else if index < 0 then .ok (index + length).toNat
  else if index < length then .ok index.toNat
  else .error (length - 1)

def range (letter : Char) (length : Nat) (rule : ChordRule) : Except Finding (Nat × Nat) := do
  let place index := (place length index).mapError fun bound ↦ .chordRange letter bound index
  return (← place rule.head.toInt, ← place rule.tail.toInt)

def cut (head tail : Nat) (tones : List Tone) : List Tone := (tones.take (tail + 1)).drop head

def copy (letter : Char) (tones : List Tone) (rule : ChordRule) : Except Finding (List Tone) := do
  let (head, tail) ← range letter tones.length rule
  let copied := cut head tail tones
  if copied.any Tone.fixed then throw (.onFixedNote letter)
  return copied.map (·.shift rule.delta)

def covers (letter : Char) (length : Nat) (i : Nat) (rule : ChordRule) : Bool :=
  match range letter length rule with
  | .ok (head, tail) => head ≤ i && i ≤ tail
  | .error _ => false

/-- The copies that the rules make, and the places that none of them covers. -/
def apply (chord : Chord) (letter : Char) (tones : List Tone) :
    Except Finding (List Tone × List Nat) := do
  let copies ← chord.mapM (copy letter tones)
  let unused := (List.range tones.length).filter fun i ↦ !chord.any (covers letter tones.length i)
  return (copies.flatten, unused)

/-- Applies chord letters one after another. A letter that is unknown or cannot be
applied leaves the tones. -/
def applyAll (chord? : Char → Option Chord) : List Char → List Tone → List Tone × List Finding
  | [], tones => (tones, [])
  | letter :: letters, tones =>
    let (next, findings) := match chord? letter with
      | none => (tones, [.unknownChord letter])
      | some chord => match chord.apply letter tones with
        | .error finding => (tones, [finding])
        | .ok (copies, unused) =>
          (copies, if unused.isEmpty then [] else [.unusedNote letter unused])
    let (last, later) := applyAll chord? letters next
    (last, findings ++ later)

def triad (third fifth : Int32) : Chord := [⟨0, -1, 0⟩, ⟨0, -1, third⟩, ⟨0, -1, fifth⟩]

/-- Major, minor, augmented and diminished triads, doubling at the octave, and the two
inversions. -/
def standard : List (Char × Chord) :=
  [('M', triad 4 7), ('m', triad 3 7), ('a', triad 4 8), ('d', triad 3 6),
    ('o', [⟨0, -1, 0⟩, ⟨0, -1, 12⟩]), ('i', [⟨1, -1, 0⟩, ⟨0, 0, 12⟩]),
    ('j', [⟨2, -1, 0⟩, ⟨0, 1, 12⟩])]

end Chord

end Rendition
