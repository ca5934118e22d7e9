import Rendition.Proofs.Number.Units
import Rendition.Proofs.Play.Placement

namespace Rendition

def Finding.barLength? : Finding → Option (Float × Float × Float)
  | .barLength expected actual time => some (expected, actual, time)
  | _ => none

def barLengths (remarks : List Remark) : List (Float × Float × Float) :=
  remarks.filterMap (·.finding.barLength?)

/-- The additions of beats and of seconds that a player makes. -/
abbrev Account := Settings → List Remark → List Symbol → Session → List (Float × Float)

namespace Scope

def noteSums (scope : Scope) (note : Note) : List (Float × Float) :=
  let timing := note.timing scope.settings
  [(scope.progress.beatsOpen, timing.beat), (scope.progress.duration, timing.nominal)]

/-- The additions with which an inner passage is taken in, its remarks on bars included. -/
def passageSums (scope : Scope) (passage : Passage) : List (Float × Float) :=
  let p := scope.progress
  let inner := passage.progress
  (p.beatsOpen, inner.barFirst) :: (p.duration, inner.duration) ::
    (if inner.barCount = 0 then [] else [(p.duration, inner.firstBarTime)]) ++
      (barLengths passage.remarks).map fun bar ↦ (bar.2.2, p.duration)

variable (stage : Stage) (player : Player) (account : Account)

def symbolSums (scope : Scope) (s : Session) : Symbol → List (Float × Float)
  | .note note => scope.noteSums note
  | .phrase times content =>
    let (symbols, remarks) := Repetition.unfold content times.toInt
    account scope.settings remarks symbols s ++
      match outcome (player scope.settings remarks symbols) s with
      | some (.ok passage, _) => scope.passageSums passage
      | _ => []
  | _ => []

def sumsFrom : (index : Nat) → List Symbol → Scope → Session → List (Float × Float)
  | _, [], _, _ => []
  | index, symbol :: rest, scope, s =>
    (scope.atIndex index).symbolSums player account s symbol ++
      match outcome ((scope.atIndex index).playSymbol stage player symbol) s with
      | some (.ok scope', s') => sumsFrom (index + 1) rest scope' s'
      | _ => []

end Scope

def accountOf (stage : Stage) : (depth : Nat) → Account
  | 0 => fun _ _ _ _ ↦ []
  | depth + 1 => fun settings remarks symbols s ↦
    (Scope.begin stage s settings remarks).sumsFrom stage (playerOf stage depth)
      (accountOf stage depth) 0 symbols s

/-- The additions of beats and of seconds, those of the phrases in it included, that a track without
calls and themes makes. -/
def Repertoire.sums (r : Repertoire) (settings : Settings) (instrument : Instrument)
    (name : Option String) (content : List Symbol) : List (Float × Float) :=
  let stage := r.stage instrument
  let symbols := instrument.opening ++ content
  let depth := r.depthOf symbols
  (Scope.enter stage settings (.opening name) false).sumsFrom stage (playerOf stage depth)
    (accountOf stage depth) 0 symbols (.opening name)

def Exactly (sums : List (Float × Float)) : Prop := ∀ sum ∈ sums, Number.ExactSum sum.1 sum.2

instance (sums : List (Float × Float)) : Decidable (Exactly sums) := List.decidableBAll _ _

theorem exactly_append {sums more : List (Float × Float)} : Exactly (sums ++ more) ↔ Exactly sums ∧
    Exactly more :=
  List.forall_mem_append

end Rendition
