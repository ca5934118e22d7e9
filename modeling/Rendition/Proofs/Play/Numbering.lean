import Rendition.Proofs.Play.Frame
import Rendition.Proofs.Play.Modest
import Rendition.Proofs.Play.Store

namespace Rendition

/-- A rule that the places of events started between two sizes of the store obey, whatever
order they are put in. -/
structure Numbering where
  Fits : Nat → Nat → List Nat → Prop
  range : ∀ a n, Fits a (a + n) (List.range' a n)
  append : ∀ {a b c ids ids'}, Fits a b ids → Fits b c ids' → Fits a c (ids ++ ids')
  lower : ∀ {a b ids}, Fits a b ids → ∀ id ∈ ids, a ≤ id

namespace Numbering

/-- Each event once, in the order in which they were started. -/
def inOrder : Numbering where
  Fits a b ids := a ≤ b ∧ ids = List.range' a (b - a)
  range a n := ⟨Nat.le_add_right a n, by rw [Nat.add_sub_cancel_left]⟩
  append := by
    rintro a b c _ _ ⟨hab, rfl⟩ ⟨hbc, rfl⟩
    obtain ⟨m, rfl⟩ := Nat.exists_eq_add_of_le hab
    obtain ⟨n, rfl⟩ := Nat.exists_eq_add_of_le hbc
    refine ⟨Nat.le_trans hab hbc, ?_⟩
    rw [Nat.add_sub_cancel_left, Nat.add_sub_cancel_left, List.range'_append_1, Nat.add_assoc,
      Nat.add_sub_cancel_left]
  lower := by
    rintro a b _ ⟨-, rfl⟩ id hid
    exact (List.mem_range'_1.mp hid).1

/-- None from elsewhere. -/
def within : Numbering where
  Fits a b ids := a ≤ b ∧ ∀ id ∈ ids, a ≤ id ∧ id < b
  range a n := ⟨Nat.le_add_right a n, fun _ hid ↦ List.mem_range'_1.mp hid⟩
  append := by
    rintro a b c ids ids' ⟨hab, hm⟩ ⟨hbc, hm'⟩
    refine ⟨Nat.le_trans hab hbc, ?_⟩
    intro id hid
    obtain hid | hid := List.mem_append.mp hid
    · have := hm id hid
      omega
    · have := hm' id hid
      omega
  lower h id hid := (h.2 id hid).1

theorem nil (N : Numbering) (a : Nat) : N.Fits a a [] := N.range a 0

end Numbering

variable {N : Numbering} {stage : Stage} {player : Player}

/-- What a passage does to the store, where `N` rules the places of its events. -/
def Passage.Counts (N : Numbering) (s : Session) (r : Except Fault Passage) (s' : Session) : Prop :=
  s.Extends s' ∧ ∀ passage, r = .ok passage → N.Fits s.events.size s'.events.size passage.events

def Player.Counts (N : Numbering) (player : Player) : Prop :=
  ∀ settings remarks symbols s r s', outcome (player settings remarks symbols) s = some (r, s') →
    Passage.Counts N s r s'

def handed : Except Fault (Option Passage) → List Nat
  | .ok (some passage) => passage.events
  | _ => []

def Stage.Counts (N : Numbering) (stage : Stage) : Prop :=
  ∀ player : Player, player.EndsFatally → player.Counts N →
    ∀ name function values scope s r scope' s', stage.repertoire.functions.find? name =
    some function →
    (Scope.answer stage player name function.access (function.body name values) scope).run s =
      some ((r, scope'), s') →
    s.Extends s' ∧ scope'.events = scope.events ∧
      ((∀ fault, r = .error fault → fault.isFatal = false) →
        N.Fits s.events.size s'.events.size (handed r))

namespace Scope

def Counts (N : Numbering) (scope : Scope) (s : Session) (r : Except Fault Scope)
    (s' : Session) : Prop :=
  s.Extends s' ∧ ∀ scope', r = .ok scope' →
    ∃ ids, scope'.events = scope.events ++ ids ∧ N.Fits s.events.size s'.events.size ids

theorem Counts.of_eq {scope scope' : Scope} {s s' : Session} (he : scope'.events = scope.events)
    (hs : s'.events = s.events) (hp : s'.pending = s.pending) :
    scope.Counts N s (.ok scope') s' := by
  refine ⟨.of_eq hs hp, ?_⟩
  rintro _ ⟨⟩
  exact ⟨[], by simp [he], by rw [hs]; exact N.nil _⟩

theorem Counts.trans {scope scope₁ : Scope} {s s₁ s' : Session} {r : Except Fault Scope}
    (h : scope.Counts N s (.ok scope₁) s₁) (h' : scope₁.Counts N s₁ r s') :
    scope.Counts N s r s' := by
  refine ⟨h.1.trans h'.1, ?_⟩
  intro scope' hr
  obtain ⟨ids, he, hids⟩ := h.2 scope₁ rfl
  obtain ⟨ids', he', hids'⟩ := h'.2 scope' hr
  exact ⟨ids ++ ids', by rw [he', he, List.append_assoc], N.append hids hids'⟩

theorem counts_add {scope scope₁ : Scope} {passage : Passage} {s s₁ : Session} (h : s.Extends s₁)
    (he : scope₁.events = scope.events)
    (hids : N.Fits s.events.size s₁.events.size passage.events) :
    scope.Counts N s (.ok (scope₁.add stage passage s₁).1) (scope₁.add stage passage s₁).2 := by
  refine ⟨h.later (N.lower hids) _ _, ?_⟩
  rintro _ ⟨⟩
  refine ⟨passage.events, ?_, ?_⟩
  · rw [← he]
    exact absorb_events scope₁ stage passage
  · change N.Fits _ (s₁.later _ _ _).events.size _
    rwa [Session.size_later]

theorem counts_take {scope : Scope} {s s₁ : Session} {r : Except Fault Passage}
    (h : Passage.Counts N s r s₁) :
    scope.Counts N s (scope.take stage s₁ r).1 (scope.take stage s₁ r).2 := by
  cases r with
  | error fault => exact ⟨h.1, by rintro _ ⟨⟩⟩
  | ok passage => exact counts_add h.1 rfl (h.2 passage rfl)

theorem counts_receive {scope scope₁ : Scope} {s s₁ : Session} {r : Except Fault (Option Passage)}
    (h : s.Extends s₁) (he : scope₁.events = scope.events)
    (hids : (∀ fault, r = .error fault → fault.isFatal = false) →
      N.Fits s.events.size s₁.events.size (handed r))
    (name : String) :
    scope.Counts N s (scope₁.receive stage s₁ name r).1 (scope₁.receive stage s₁ name r).2 := by
  have hkeep : N.Fits s.events.size s₁.events.size [] → ∀ scope' : Scope, scope'.events =
      scope.events →
      scope.Counts N s (.ok scope') s₁ := by
    intro hnone scope' he'
    refine ⟨h, ?_⟩
    rintro _ ⟨⟩
    exact ⟨[], by rw [he', List.append_nil], hnone⟩
  match r, hids with
  | .error (.undefinedTheme theme bar index), _ => exact ⟨h, by rintro _ ⟨⟩⟩
  | .error (.setting setting fault), hids => exact hkeep (hids (by rintro _ ⟨⟩; rfl)) _ he
  | .error (.argument function fault), hids => exact hkeep (hids (by rintro _ ⟨⟩; rfl)) _ he
  | .ok none, hids => exact hkeep (hids nofun) _ he
  | .ok (some passage), hids => exact counts_add h he (hids nofun)

theorem Step.counts {scope : Scope} {s : Session} {symbol : Symbol} {r : Except Fault Scope}
    {s' : Session} (hstage : stage.Counts N) (hend : player.EndsFatally) (hplayer : player.Counts N)
    (h : Step stage player scope s symbol r s') : scope.Counts N s r s' := by
  cases h with
  | note note =>
    refine ⟨scope.noted_extends stage s note, ?_⟩
    rintro _ ⟨⟩
    refine ⟨_, noted_events scope stage s note, ?_⟩
    rw [noted_size]
    exact N.range _ _
  | tie => exact .of_eq rfl rfl rfl
  | barLine bar => exact .of_eq (scope.playBarLine_recounts bar).events rfl rfl
  | marking kind => exact .of_eq rfl rfl rfl
  | inert => exact .of_eq rfl rfl rfl
  | phrase times content r s₁ h => exact counts_take (hplayer _ _ _ _ _ _ h)
  | undefined name h => exact ⟨.refl s, by rintro _ ⟨⟩⟩
  | active => exact .of_eq rfl rfl rfl
  | theme name content hc ha r s₁ h =>
    have hc : Passage.Counts N s r s₁.leaving := by
      obtain ⟨hext, hids⟩ := hplayer _ _ _ _ _ _ h
      have hin : s.Extends (s.entering name) := .of_eq rfl rfl
      have hout : s₁.Extends s₁.leaving := .of_eq rfl rfl
      exact ⟨hin.trans (hext.trans hout), hids⟩
    exact counts_take hc
  | unknown => exact .of_eq rfl rfl rfl
  | formula => exact .of_eq rfl rfl rfl
  | call name arguments function values hf hv r scope₁ s₁ h =>
    obtain ⟨hext, he, hids⟩ := hstage player hend hplayer _ _ _ _ _ _ _ _ hf h
    exact counts_receive hext he hids name

theorem counts_playFrom (hstage : stage.Counts N) (hend : player.EndsFatally)
    (hplayer : player.Counts N) {index : Nat} {symbols : List Symbol} {scope : Scope} {s : Session}
    {r : Except Fault Scope} {s' : Session}
    (h : outcome (scope.playFrom stage player index symbols) s = some (r, s')) :
    scope.Counts N s r s' := by
  have hstep : ∀ i symbol (scope₁ : Scope) s₁ r s₂,
      outcome ((scope₁.atIndex i).playSymbol stage player symbol) s₁ = some (r, s₂) →
      scope₁.Counts N s₁ r s₂ := by
    intro i symbol scope₁ s₁ r s₂ hs
    have hcounts := (step_of_outcome hs).counts hstage hend hplayer
    exact hcounts
  obtain ⟨scope', rfl, hc⟩ | ⟨fault, rfl, hx⟩ := playFrom_invariant
    (I := fun scope' s' ↦ scope.Counts N s (.ok scope') s') (E := fun _ s' ↦ s.Extends s')
    (fun i symbol scope₁ s₁ scope₂ s₂ hi hs ↦ hi.trans (hstep i symbol scope₁ s₁ _ s₂ hs))
    (fun i symbol scope₁ s₁ fault s₂ hi hs ↦ hi.1.trans (hstep i symbol scope₁ s₁ _ s₂ hs).1)
    (Counts.of_eq rfl rfl rfl) h
  · exact hc
  · exact ⟨hx, by rintro _ ⟨⟩⟩

end Scope

theorem Stage.Counts.playerOf (hstage : stage.Counts N) (depth : Nat) :
    (Rendition.playerOf stage depth).Counts N := by
  intro settings remarks symbols s r s' h
  refine playerOf_induction (P := fun _ _ _ s r s' ↦ Passage.Counts N s r s') ?_ depth h
  intro depth hplayer settings remarks symbols s r s' hrun
  obtain ⟨hext, hids⟩ :=
    Scope.counts_playFrom hstage (playerOf_endsFatally stage depth) hplayer hrun
  refine ⟨hext, ?_⟩
  intro passage hr
  cases r with
  | error fault => cases hr
  | ok scope =>
    obtain rfl := Except.ok.inj hr
    obtain ⟨ids, he, hfits⟩ := hids scope rfl
    rw [Scope.conclude_events, he]
    exact hfits

theorem Repertoire.OnlyStandard.counts (hr : stage.repertoire.OnlyStandard) (N : Numbering) :
    stage.Counts N := by
  intro player hend hplayer name function values scope s r scope' s' hf h
  obtain ⟨⟨settings, rfl⟩, hm⟩ := Scope.modestly_of_call hr hf h
  cases hm with
  | done => exact ⟨.refl s, rfl, fun _ ↦ N.nil _⟩
  | fail => exact ⟨.refl s, rfl, fun _ ↦ N.nil _⟩
  | @play phrase overrides r s' hp h =>
    obtain ⟨hext, hids⟩ := hplayer _ _ _ _ _ _ h
    refine ⟨hext, rfl, ?_⟩
    intro hown
    cases r with
    | ok passage => exact hids passage rfl
    | error fault => exact absurd (hend _ _ _ _ _ _ h) (by simp [hown fault rfl])

end Rendition
