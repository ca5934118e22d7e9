import Rendition.Proofs.Play.Store

namespace Rendition

variable {stage : Stage} {player : Player} {R : Session → Session → Prop}

/-- A relation between a session and later ones that holds whatever passages are added in
between. -/
structure Session.Added (R : Session → Session → Prop) : Prop where
  refl (s : Session) : R s s
  trans {s t u : Session} (h : R s t) (h' : R t u) : R s u
  later (s : Session) (ids : List Nat) (time beats : Float) : R s (s.later ids time beats)

/-- A relation between a session and later ones that holds whatever is played in between. -/
structure Session.Kept (stage : Stage) (R : Session → Session → Prop) :
    Prop extends Session.Added R where
  note (scope : Scope) (s : Session) (note : Note) : R s (scope.noted stage s note).2
  tie (s : Session) : R s { s with tieLeft := true }
  record (s : Session) (entry : List Tone) : R s { s with trace := s.trace ++ [entry] }
  reclaim (access : Access) {s t : Session} (h : R (access.lend s) t) : R s (access.reclaim s t)
  leave (name : String) {s t : Session} (h : R (s.entering name) t) : R s t.leaving

def Player.Keeps (R : Session → Session → Prop) (player : Player) : Prop :=
  ∀ settings remarks symbols s r s', outcome (player settings remarks symbols) s =
    some (r, s') → R s s'

theorem Player.Keeps.playPhrase {player : Player} (hplayer : player.Keeps R)
    (hreclaim : ∀ (access : Access) {s t : Session}, R (access.lend s) t → R s (access.reclaim s t))
    {scope : Scope} {s s' : Session} {phrase : Phrase} {overrides : Overrides} {access : Access}
    {r : Except Fault Passage}
    (h : (scope.playPhrase player phrase overrides access).run s = some (r, s')) : R s s' := by
  rw [Scope.playPhrase_run] at h
  obtain ⟨⟨u, s₁⟩, hplay, he⟩ := Option.map_eq_some_iff.mp h
  cases he
  exact hreclaim access (hplayer _ _ _ _ _ _ hplay)

namespace Session.Added

theorem take (hR : Added R) (stage : Stage) (scope : Scope) (s : Session)
    (r : Except Fault Passage) :
    R s (scope.take stage s r).2 := by
  cases r with
  | ok passage => exact hR.later s _ _ _
  | error fault => exact hR.refl s

theorem receive (hR : Added R) (stage : Stage) (scope : Scope) (s : Session) (name : String)
    (r : Except Fault (Option Passage)) : R s (scope.receive stage s name r).2 := by
  match r with
  | .ok (some passage) => exact hR.later s _ _ _
  | .ok none | .error (.undefinedTheme ..) | .error (.setting ..) | .error (.argument ..) =>
    exact hR.refl s

theorem join (hR : Added R) (stage : Stage) (scope : Scope) (s : Session)
    (passages : List Passage) :
    R s (scope.join stage passages s).2 := by
  have heach : ∀ (index : Nat) (scope : Scope) (s : Session),
      R s (Scope.addEach stage index passages scope s).2 := by
    induction passages with
    | nil => exact fun _ _ s ↦ hR.refl s
    | cons passage rest ih => exact fun index scope s ↦ hR.trans (hR.later s _ _ _) (ih _ _ _)
  exact heach 0 _ s

end Session.Added

namespace Session.Kept

variable {scope : Scope} {s s' : Session}

theorem answer (hR : Kept stage R) (hplayer : player.Keeps R) {α : Type} {name : String}
    {access : Access} {script : Script α} {r : Except Fault α × Scope}
    (h : (scope.answer stage player name access script).run s = some (r, s')) : R s s' := by
  induction script generalizing scope s with
  | done answer =>
    cases h
    exact hR.refl _
  | fail fault =>
    cases h
    exact hR.refl _
  | play phrase overrides inner next ih =>
    rw [Scope.answer_play, Option.bind_eq_some_iff] at h
    obtain ⟨⟨u, s₁⟩, hplay, hrest⟩ := h
    exact hR.trans (hplayer.playPhrase hR.reclaim hplay) (ih _ hrest)
  | join passages next ih =>
    rw [Scope.answer_join] at h
    exact hR.trans (hR.join stage scope s passages) (ih _ h)
  | remark message next ih => exact ih h
  | settings next ih => exact ih _ h
  | setSettings settings next ih =>
    rw [Scope.answer_setSettings] at h
    exact ih h
  | trace next ih => exact ih _ h
  | record entry next ih =>
    rw [Scope.answer_record] at h
    split at h
    · exact hR.trans (hR.record s entry) (ih _ h)
    · exact ih _ h
  | progress next ih => exact ih _ h

theorem step (hR : Kept stage R) (hplayer : player.Keeps R) {symbol : Symbol}
    {r : Except Fault Scope} (h : Scope.Step stage player scope s symbol r s') : R s s' := by
  cases h with
  | note note => exact hR.note scope s note
  | tie => exact hR.tie s
  | phrase times content r s₁ h => exact hR.trans (hplayer _ _ _ _ _ _ h) (hR.take stage scope s₁ r)
  | theme name content hc ha r s₁ h =>
    exact hR.trans (hR.leave name (hplayer _ _ _ _ _ _ h)) (hR.take stage scope s₁.leaving r)
  | call name arguments function values hf hv r scope₁ s₁ h =>
    exact hR.trans (hR.answer hplayer h) (hR.receive stage scope₁ s₁ name r)
  | barLine | marking | inert | undefined | active | unknown | formula => exact hR.refl s

theorem playFrom (hR : Kept stage R) (hplayer : player.Keeps R) {index : Nat}
    {symbols : List Symbol} {r : Except Fault Scope}
    (h : outcome (scope.playFrom stage player index symbols) s = some (r, s')) :
    R s s' := by
  have hsymbol : ∀ i symbol (scope : Scope) s₁ r s₂, R s s₁ →
      outcome ((scope.atIndex i).playSymbol stage player symbol) s₁ = some (r, s₂) → R s s₂ :=
    fun _ _ _ _ _ _ hi hs ↦ hR.trans hi (hR.step hplayer (Scope.step_of_outcome hs))
  obtain ⟨-, -, hi⟩ | ⟨-, -, he⟩ :=
    Scope.playFrom_invariant (I := fun _ s' ↦ R s s') (E := fun _ s' ↦ R s s')
      (fun i symbol scope s₁ _ s₂ ↦ hsymbol i symbol scope s₁ _ s₂)
    (fun i symbol scope s₁ _ s₂ ↦ hsymbol i symbol scope s₁ _ s₂) (hR.refl s) h
  · exact hi
  · exact he

theorem playerOf (hR : Kept stage R) (depth : Nat) : (playerOf stage depth).Keeps R :=
  fun _ _ _ _ _ _ h ↦ playerOf_induction (P := fun _ _ _ s _ s' ↦ R s s')
    (fun _ hinner _ _ _ _ _ _ hrun ↦ hR.playFrom hinner hrun) depth h

end Session.Kept

namespace Session

structure Grows (s s' : Session) : Prop where
  size_le : s.events.size ≤ s'.events.size
  pending_lt : (∀ p ∈ s.pending, p.event < s.events.size) → ∀ p ∈ s'.pending, p.event <
    s'.events.size

theorem Extends.grows {s s' : Session} (h : s.Extends s') : s.Grows s' := ⟨h.size_le, h.pending_lt⟩

theorem Grows.of_eq {s s' : Session} (he : s'.events.size = s.events.size)
    (hp : s'.pending = s.pending) :
    s.Grows s' where
  size_le := Nat.le_of_eq he.symm
  pending_lt := by rw [he, hp]; exact id

theorem Grows.trans {s t u : Session} (h : s.Grows t) (h' : t.Grows u) : s.Grows u :=
  ⟨Nat.le_trans h.size_le h'.size_le, fun hp ↦ h'.pending_lt (h.pending_lt hp)⟩

theorem kept_grows : Kept stage Grows where
  refl s := (Extends.refl s).grows
  trans h h' := h.trans h'
  note scope s note := (scope.noted_extends stage s note).grows
  tie _ := .of_eq rfl rfl
  later s ids time beats := .of_eq (s.size_later ids time beats) (s.later_pending ids time beats)
  record _ _ := .of_eq rfl rfl
  reclaim access {s _} h :=
    (Grows.of_eq (by rw [access.lend_events]) (access.lend_pending s)).trans
      (h.trans (.of_eq rfl rfl))
  leave name {s t} h := by
    have hin : s.Grows (s.entering name) := .of_eq rfl rfl
    have hout : t.Grows t.leaving := .of_eq rfl rfl
    exact hin.trans (h.trans hout)

end Session


end Rendition
