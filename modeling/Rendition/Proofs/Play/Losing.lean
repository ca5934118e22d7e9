import Rendition.Proofs.Play.Honest
import Rendition.Proofs.Play.Placement

namespace Rendition

namespace Moment

variable {stage : Stage} {m m' m₁ : Moment} {s s' s₁ : Session} {kept kept' : List Nat}

/-- The moment is that of a call which starts an event but does not hand it over. -/
def Loses (stage : Stage) (m : Moment) (id : Nat) : Prop :=
  ∃ index name arguments rest scope' s', m.task = .symbols index (.call name arguments :: rest) ∧
    outcome ((m.scope.atIndex index).playSymbol stage (playerOf stage m.depth)
      (.call name arguments)) m.session = some (.ok scope', s') ∧
    m.session.events.size ≤ id ∧ id < s'.events.size ∧ id ∉ scope'.events

/-- What a moment loses, and what it has found, has been there by the end of a run; and nothing that
it loses has been kept. -/
structure Bounded (stage : Stage) (m : Moment) (kept : List Nat) (s' : Session) : Prop where
  size_le : m.session.events.size ≤ s'.events.size
  lost : ∀ id, m.Loses stage id → id < s'.events.size ∧ id ∉ kept

theorem Bounded.mono (h : Bounded stage m kept s₁) (hs : s₁.events.size ≤ s'.events.size)
    (hk : ∀ id ∈ kept', m.session.events.size ≤ id → id < s₁.events.size → id ∈ kept) :
    Bounded stage m kept' s' where
  size_le := Nat.le_trans h.size_le hs
  lost id hid := by
    obtain ⟨hlt, hnot⟩ := h.lost id hid
    obtain ⟨_, _, _, _, _, _, -, -, hle, -, -⟩ := hid
    exact ⟨Nat.lt_of_lt_of_le hlt hs, fun hmem ↦ hnot (hk id hmem hle hlt)⟩

theorem Bounded.take {scope : Scope} {u : Except Fault Passage}
    (h : Bounded stage m (given Passage.events u) s₁)
    (hscope : ∀ id ∈ scope.events, id < m.session.events.size) :
    Bounded stage m (given Scope.events (scope.take stage s₁ u).1) (scope.take stage s₁ u).2 := by
  cases u with
  | error fault => exact h
  | ok passage =>
    refine h.mono (Nat.le_of_eq (s₁.size_later _ _ _).symm) ?_
    intro id hid hle _
    change id ∈ (scope.absorb stage passage).events at hid
    rw [Scope.absorb_events] at hid
    exact (List.mem_append.mp hid).resolve_left fun hmem ↦ Nat.not_lt.mpr hle (hscope id hmem)

theorem Bounded.receive {scope : Scope} {u : Except Fault (Option Passage)}
    (h : Bounded stage m (handed u) s₁) (hscope : ∀ id ∈ scope.events, id < m.session.events.size)
    (name : String) :
    Bounded stage m (given Scope.events (scope.receive stage s₁ name u).1)
      (scope.receive stage s₁ name u).2 := by
  have hkeep : ∀ kept, Bounded stage m kept s₁ → Bounded stage m scope.events s₁ := by
    intro kept h
    refine h.mono (Nat.le_refl _) ?_
    intro id hid hle _
    exact absurd (hscope id hid) (Nat.not_lt.mpr hle)
  match u, h with
  | .error (.undefinedTheme ..), h => exact h
  | .error (.setting ..), h | .error (.argument ..), h | .ok none, h => exact hkeep _ h
  | .ok (some passage), h => exact Bounded.take (u := .ok passage) h hscope

variable {depth index : Nat} {around : List Scope} {scope scope' : Scope} {name : String}
  {access : Access} {held : List Passage} {script : Script (Option Passage)} {symbol : Symbol}
  {symbols rest : List Symbol}

/-- Each event started from a moment on is kept, or a call under the moment loses it. -/
def Accounted (stage : Stage) (m : Moment) (kept : List Nat) (s' : Session) : Prop :=
  ∀ id, m.session.events.size ≤ id → id < s'.events.size → id ∈ kept ∨ ∃ m', Reached stage m m' ∧
    m'.Loses stage id

theorem Accounted.add {scope : Scope} {passage : Passage} (h : Accounted stage m₁ passage.events s₁)
    (hnext : Next stage m m₁) (hs : m₁.session.events.size = m.session.events.size) :
    Accounted stage m (scope.add stage passage s₁).1.events (scope.add stage passage s₁).2 := by
  intro id hid hid'
  change id < (s₁.later _ _ _).events.size at hid'
  rw [Session.size_later] at hid'
  change id ∈ (scope.absorb stage passage).events ∨ _
  rw [Scope.absorb_events]
  exact (h id (hs ▸ hid) hid').imp (List.mem_append_right _) fun ⟨m', hreached, hloses⟩ ↦
    ⟨m', .head hnext hreached, hloses⟩

end Moment

end Rendition
