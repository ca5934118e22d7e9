import Rendition.Play.Passage
import Rendition.Script.Value

namespace Rendition

/-- What a function may do with the trace of the passage that calls it. -/
inductive Access where
  | full
  | readOnly
  | isolated
  deriving DecidableEq, Repr

namespace Access

def reads : Access → Bool
  | full | readOnly => true
  | isolated => false

def writes : Access → Bool
  | full => true
  | readOnly | isolated => false

end Access

/-- The requests that the body of a function makes of the passage that calls it. -/
inductive Script (α : Type) where
  | done (answer : α)
  | fail (fault : Fault)
  /-- Plays a phrase as an inner passage, under the caller's settings with the overrides. -/
  | play (phrase : Phrase) (overrides : Overrides) (access : Access)
      (next : Except Fault Passage → Script α)
  | join (passages : List Passage) (next : Passage → Script α)
  | remark (message : String) (next : Script α)
  | settings (next : Settings → Script α)
  | setSettings (settings : Settings) (next : Script α)
  | trace (next : Option Trace → Script α)
  /-- Records an entry if the trace may be written, and tells whether it did. -/
  | record (entry : List Tone) (next : Bool → Script α)
  | progress (next : Progress → Script α)

namespace Script

variable {α β : Type}

def bind : Script α → (α → Script β) → Script β
  | done answer, f => f answer
  | fail fault, _ => fail fault
  | play phrase overrides access next, f => play phrase overrides access fun p ↦ (next p).bind f
  | join passages next, f => join passages fun p ↦ (next p).bind f
  | remark message next, f => remark message (next.bind f)
  | settings next, f => settings fun s ↦ (next s).bind f
  | setSettings s next, f => setSettings s (next.bind f)
  | trace next, f => trace fun t ↦ (next t).bind f
  | record entry next, f => record entry fun b ↦ (next b).bind f
  | progress next, f => progress fun p ↦ (next p).bind f

instance : Monad Script where
  pure := done
  bind := bind

def ofExcept : Except Fault α → Script α
  | .ok answer => done answer
  | .error fault => fail fault

/-- Plays a phrase and passes on the fault that ended it, if one did. -/
def passage (phrase : Phrase) (overrides : Overrides) (access : Access) : Script Passage :=
  play phrase overrides access ofExcept

def adjust (change : Settings → Except Fault Settings) : Script Unit :=
  settings fun s ↦ (ofExcept (change s)).bind fun s ↦ setSettings s (done ())

end Script

/-- A function that scores call by name. The body is told that name. -/
structure Function where
  access : Access := .full
  body : String → List Value → Script (Option Passage)

end Rendition
