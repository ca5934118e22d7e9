import Rendition.Fault

namespace Rendition

structure Settings where
  /-- A semitone offset for each voice. -/
  key : List Int32 := [0]
  /-- A base volume for each voice; the last counts for all further voices. -/
  volume : List Float := [1]
  bar : Float := 4
  beat : Float := 4
  /-- Beats a minute. -/
  speed : Float := 60
  /-- The share of its length by which a note of each staccato index is cut short. -/
  staccato : List Float := [0, 0.5, 0.75]
  accent : Float := 2
  light : Float := 0.5
  trace : Nat := 1
  /-- Lengths are scaled by `2 ^ -duration`. -/
  duration : Float := 0
  fadeIn : Float := 0
  fadeOut : Float := 0
  rev : Float := 0
  deriving DecidableEq, Repr

/-- Settings that take the place of others where present. -/
structure Overrides where
  key : Option (List Int32) := none
  volume : Option (List Float) := none
  bar : Option Float := none
  beat : Option Float := none
  speed : Option Float := none
  staccato : Option (List Float) := none
  accent : Option Float := none
  light : Option Float := none
  trace : Option Nat := none
  duration : Option Float := none
  fadeIn : Option Float := none
  fadeOut : Option Float := none
  rev : Option Float := none
  deriving DecidableEq, Repr

structure Effects where
  fadeIn : Float
  fadeOut : Float
  rev : Float
  deriving DecidableEq, Repr

inductive Dial where
  | bar | beat | speed | accent | light | duration | fadeIn | fadeOut | rev
  deriving DecidableEq, Repr

namespace Dial

def all : List Dial := [bar, beat, speed, accent, light, duration, fadeIn, fadeOut, rev]

def name : Dial → String
  | bar => "bar"
  | beat => "beat"
  | speed => "speed"
  | accent => "accent"
  | light => "light"
  | duration => "duration"
  | fadeIn => "fade-in"
  | fadeOut => "fade-out"
  | rev => "rev"

def ofName? (name : String) : Option Dial := all.find? (·.name = name)

def admits (value : Float) : Dial → Bool
  | bar | beat | speed | accent | light => 0 < value
  | duration => value.isFinite
  | fadeIn | fadeOut | rev => 0 ≤ value

def read (s : Settings) : Dial → Float
  | bar => s.bar
  | beat => s.beat
  | speed => s.speed
  | accent => s.accent
  | light => s.light
  | duration => s.duration
  | fadeIn => s.fadeIn
  | fadeOut => s.fadeOut
  | rev => s.rev

def turn (s : Settings) (value : Float) : Dial → Settings
  | bar => { s with bar := value }
  | beat => { s with beat := value }
  | speed => { s with speed := value }
  | accent => { s with accent := value }
  | light => { s with light := value }
  | duration => { s with duration := value }
  | fadeIn => { s with fadeIn := value }
  | fadeOut => { s with fadeOut := value }
  | rev => { s with rev := value }

section Turn

variable (dial : Dial) (s : Settings) (value : Float)

theorem turn_key : (dial.turn s value).key = s.key := by cases dial <;> rfl

theorem turn_volume : (dial.turn s value).volume = s.volume := by cases dial <;> rfl

theorem turn_staccato : (dial.turn s value).staccato = s.staccato := by cases dial <;> rfl

end Turn

def check (dial : Dial) (value : Float) : Except Fault Unit :=
  if dial.admits value then .ok () else .error (.setting dial.name (.outOfRange value))

end Dial

namespace Settings

/-- The farthest a key entry may lie from zero, in semitones. -/
def keyLimit : Int32 := 1200

def keyAdmits (offset : Int32) : Bool := -keyLimit ≤ offset ∧ offset ≤ keyLimit

def isShare (value : Float) : Bool := 0 ≤ value && value ≤ 1

def checkList {α : Type} (name : String) (admits : α → Bool) (outOfRange : α → SettingFault)
    (values : List α) :
    Except Fault Unit :=
  if values.isEmpty then .error (.setting name .empty)
  else match values.find? (!admits ·) with
    | some value => .error (.setting name (outOfRange value))
    | none => .ok ()

def checkKey (key : List Int32) : Except Fault Unit :=
  checkList "key" keyAdmits .offsetOutOfRange key

def checkShares (name : String) (shares : List Float) : Except Fault Unit :=
  checkList name isShare .outOfRange shares

def check (s : Settings) : Except Fault Unit := do
  checkKey s.key
  checkShares "volume" s.volume
  checkShares "stac" s.staccato
  Dial.all.forM fun dial ↦ dial.check (dial.read s)
  if s.trace = 0 then throw (.setting "trace" .traceTooShort)

def withKey (s : Settings) (key : List Int32) : Except Fault Settings := do
  checkKey key
  return { s with key }

def withVolume (s : Settings) (volume : List Float) : Except Fault Settings := do
  checkShares "volume" volume
  return { s with volume }

def withStaccato (s : Settings) (staccato : List Float) : Except Fault Settings := do
  checkShares "stac" staccato
  return { s with staccato }

def traceLimit : Int := 0xffffffffffffffff

def withTrace (s : Settings) (value : Float) : Except Fault Settings :=
  if value < 1 || !Number.isWhole value then .error (.setting "trace" .traceNotWhole)
  else .ok { s with trace := (Number.clamp 0 traceLimit (Number.truncate value)).toNat }

def withScalar (s : Settings) (name : String) (value : Float) : Except Fault Settings :=
  if name = "trace" then s.withTrace value
  else match Dial.ofName? name with
    | some dial => do
      dial.check value
      return dial.turn s value
    | none => .error (.setting name .unknown)

def override (s : Settings) (o : Overrides) : Settings where
  key := o.key.getD s.key
  volume := o.volume.getD s.volume
  bar := o.bar.getD s.bar
  beat := o.beat.getD s.beat
  speed := o.speed.getD s.speed
  staccato := o.staccato.getD s.staccato
  accent := o.accent.getD s.accent
  light := o.light.getD s.light
  trace := o.trace.getD s.trace
  duration := o.duration.getD s.duration
  fadeIn := o.fadeIn.getD s.fadeIn
  fadeOut := o.fadeOut.getD s.fadeOut
  rev := o.rev.getD s.rev

def volumeOf (s : Settings) (voice : Nat) : Float := (s.volume[voice]?.or s.volume.getLast?).getD 1

/-- The share cut off a note; unknown indices cut nothing. -/
def shortening (s : Settings) (index : Nat) : Float := s.staccato[index]?.getD 0

def effects (s : Settings) : Effects := ⟨s.fadeIn, s.fadeOut, s.rev⟩

end Settings

end Rendition
