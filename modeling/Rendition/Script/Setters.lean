import Rendition.Script.Basic
import Rendition.Table

namespace Rendition.Script

/-- The largest 32-bit integer, which bounds offsets and whole arguments. -/
def wholeLimit : Int := 0x7fffffff

section Arguments

variable (name : String) (values : List Value) (position : Nat)

def refuse {α : Type} (fault : ArgumentFault) : Script α := fail (.argument name fault)

def argument : Script Value :=
  match values[position]? with
  | some value => done value
  | none => refuse name (.missing (position + 1))

def number : Script Float := do
  match (← argument name values position).number? with
  | some value => if value.isFinite then done value else refuse name (.notNumber (position + 1))
  | none => refuse name (.notNumber (position + 1))

def whole : Script Int := do
  let value ← number name values position
  if Number.isWhole value && (Number.truncate value).natAbs ≤
    wholeLimit then done (Number.truncate value)
  else refuse name (.notWhole (position + 1))

def numbers : Script (List Float) := do
  match (← argument name values position).numbers? with
  | some list =>
    if list.all Float.isFinite then done list else refuse name (.notList (position + 1))
  | none => refuse name (.notList (position + 1))

def phrase : Script Phrase := do
  match (← argument name values position).phrase? with
  | some phrase => done phrase
  | none => refuse name (.notTrack (position + 1))

end Arguments

def fitsOffset (n : Int) : Bool := -wholeLimit - 1 ≤ n ∧ n ≤ wholeLimit

def shiftedKey (name : String) (shift : Int) : Script (List Int32) := settings fun s ↦
  let sums := s.key.map (·.toInt + shift)
  if sums.all fitsOffset then do
    let key := sums.map Int32.ofInt
    ofExcept (Settings.checkKey key)
    done key
  else refuse name .keyShift

def scalar (setting : String) (name : String) (values : List Value) : Script (Option Passage) := do
  let value ← number name values 0
  adjust (·.withScalar setting value)
  return none

/-- Replaces the key, each entry rounded to a whole number of semitones. -/
def key (name : String) (values : List Value) : Script (Option Passage) := do
  let list ← numbers name values 0
  adjust (·.withKey (list.map fun v ↦
    Int32.ofInt (Number.clamp (-wholeLimit - 1) wholeLimit (Number.round v))))
  return none

def octave (name : String) (values : List Value) : Script (Option Passage) := do
  let octaves ← whole name values 0
  if fitsOffset (12 * octaves) then
    let key ← shiftedKey name (12 * octaves)
    adjust (·.withKey key)
    return none
  else refuse name .octaveShift

def volume (name : String) (values : List Value) : Script (Option Passage) := do
  let list ← numbers name values 0
  adjust (·.withVolume list)
  return none

/-- Replaces the staccato table by a list, or its entry at an index, 1 if none is given, by a
number. The entry just past the end is appended. -/
def staccato (name : String) (values : List Value) : Script (Option Passage) := do
  if let some (.numbers table) := values.head? then
    adjust (·.withStaccato table)
    return none
  let share ← number name values 0
  let index ← if values.length > 1 then whole name values 1 else done 1
  if index < 0 then refuse name .negativeStaccato
  let place := index.toNat
  settings fun s ↦
    if place ≤ s.staccato.length then do
      adjust (·.withStaccato (s.staccato.take place ++ share :: s.staccato.drop (place + 1)))
      return none
    else refuse name (.staccatoPastEnd place)

/-- Plays as many notes as given in the time of the next lower power of two. -/
def tuplet (name : String) (values : List Value) : Script (Option Passage) := do
  let count ← number name values 0
  if count ≤ 0 then refuse name .tupletCount
  let content ← phrase name values 1
  settings fun s ↦ do
    let unit := s.duration + (count.log2 - count.log2.floor)
    return some (← passage content { duration := some unit } .full)

def transpose (name : String) (values : List Value) : Script (Option Passage) := do
  let shift ← whole name values 0
  let content ← phrase name values 1
  let key ← shiftedKey name shift
  return some (← passage content { key := some key } .full)

def standard : List (String × (String → List Value → Script (Option Passage))) :=
  [("Speed", scalar "speed"), ("Bar", scalar "bar"), ("Beat", scalar "beat"),
    ("Accent", scalar "accent"), ("Light", scalar "light"), ("Trace", scalar "trace"),
    ("Dur", scalar "duration"), ("FadeIn", scalar "fade-in"), ("FadeOut", scalar "fade-out"),
    ("Rev", scalar "rev"), ("Key", key), ("Oct", octave), ("Volume", volume), ("Stac", staccato),
    ("Tuplet", tuplet), ("Transpose", transpose)]

end Rendition.Script
