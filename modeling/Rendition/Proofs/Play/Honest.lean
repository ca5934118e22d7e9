import Rendition.Proofs.Play.Numbering
import Rendition.Proofs.Script.Honest

namespace Rendition

namespace Scope

variable {stage : Stage} {scope : Scope} {s s₀ : Session} {passages : List Passage}

theorem join_events : (scope.join stage passages s).1.events = passages.flatMap Passage.events := by
  have heach : ∀ (index : Nat) (scope : Scope) (s : Session),
      (addEach stage index passages scope s).1.events = scope.events ++
      passages.flatMap Passage.events := by
    induction passages with
    | nil => exact fun _ _ _ ↦ (List.append_nil _).symm
    | cons passage rest ih =>
      intro index scope s
      refine (ih _ _ _).trans ?_
      rw [List.flatMap_cons, ← List.append_assoc]
      exact congrArg (· ++ _) ((scope.atIndex index).absorb_events stage passage)
  change ((addEach stage 0 passages (enter stage scope.settings s true) s).1.conclude
    (addEach stage 0 passages (enter stage scope.settings s true) s).2).events = _
  rw [conclude_events, heach]
  rfl

theorem join_extends (h : s₀.Extends s)
    (hlow : ∀ p ∈ passages, ∀ id ∈ p.events, s₀.events.size ≤ id) :
    s₀.Extends (scope.join stage passages s).2 := by
  have heach : ∀ (index : Nat) (scope : Scope) (s : Session), s₀.Extends s →
      s₀.Extends (addEach stage index passages scope s).2 := by
    induction passages with
    | nil => exact fun _ _ _ h ↦ h
    | cons passage rest ih =>
      intro index scope s h
      obtain ⟨hpassage, hrest⟩ := List.forall_mem_cons.mp hlow
      exact ih hrest _ _ _ (h.later hpassage _ _)
  exact heach 0 _ s h

theorem join_size_pending : (scope.join stage passages s).2.events.size = s.events.size ∧
    (scope.join stage passages s).2.pending = s.pending := by
  have heach : ∀ (index : Nat) (scope : Scope) (s : Session),
      (addEach stage index passages scope s).2.events.size = s.events.size ∧
        (addEach stage index passages scope s).2.pending = s.pending := by
    induction passages with
    | nil => exact fun _ _ _ ↦ ⟨rfl, rfl⟩
    | cons passage rest ih =>
      intro index scope s
      obtain ⟨hsize, hpending⟩ := ih (index + 1) ((scope.atIndex index).absorb stage passage)
        (s.later passage.events (scope.atIndex index).progress.duration
          (scope.atIndex index).progress.beatCount)
      exact ⟨hsize.trans (s.size_later _ _ _), hpending.trans (s.later_pending _ _ _)⟩
  exact heach 0 _ s

end Scope

def given {α : Type} (events : α → List Nat) : Except Fault α → List Nat
  | .ok a => events a
  | .error _ => []

def places (held : List Passage) : List Nat := held.flatMap Passage.events

theorem mem_places_hold {held : List Passage} {r : Except Fault Passage} {id : Nat} :
    id ∈ places (Script.hold held r) ↔ id ∈ given Passage.events r ∨ id ∈ places held := by
  cases r with
  | ok passage => rw [places, Script.hold, List.flatMap_cons, List.mem_append]; rfl
  | error fault => simp [Script.hold, given]

theorem mem_places_join {stage : Stage} {scope : Scope} {s : Session} {held passages : List Passage}
    (hp : passages ⊆ held) {id : Nat}
    (hid : id ∈ places ((scope.join stage passages s).1 :: held)) :
    id ∈ places held := by
  rw [places, List.flatMap_cons, Scope.join_events] at hid
  obtain hid | hid := List.mem_append.mp hid
  · obtain ⟨p, hmem, hid⟩ := List.mem_flatMap.mp hid
    exact List.mem_flatMap.mpr ⟨p, hp hmem, hid⟩
  · exact hid

section Answer

variable {stage : Stage} {player : Player} {name : String} {access : Access} {held : List Passage}
  {script : Script (Option Passage)} {scope scope' : Scope} {s₀ s s' : Session}
  {r : Except Fault (Option Passage)}

theorem Scope.playPhrase_counts (hplayer : player.Counts .within) {phrase : Phrase}
    {overrides : Overrides} {u : Except Fault Passage}
    (h : (scope.playPhrase player phrase overrides access).run s = some (u, s')) :
    s.Extends s' ∧ ∀ id ∈ given Passage.events u, s.events.size ≤ id ∧ id < s'.events.size := by
  rw [playPhrase_run] at h
  obtain ⟨⟨u, s₁⟩, hplay, he⟩ := Option.map_eq_some_iff.mp h
  cases he
  obtain ⟨hin, hids⟩ := hplayer _ _ _ _ _ _ hplay
  have hlend : s.Extends (access.lend s) := .of_eq (access.lend_events s) (access.lend_pending s)
  have hback : s₁.Extends (access.reclaim s s₁) := .of_eq rfl rfl
  refine ⟨hlend.trans (hin.trans hback), ?_⟩
  intro id hid
  cases u with
  | error fault => cases hid
  | ok passage => exact access.lend_events s ▸ (hids passage rfl).2 id hid

theorem Scope.answer_honest (hplayer : player.Counts .within) (hh : script.Honest held)
    (hheld : ∀ id ∈ places held, s₀.events.size ≤ id ∧ id < s.events.size) (hext : s₀.Extends s)
    (h : (answer stage player name access script scope).run s = some ((r, scope'), s')) :
    s₀.Extends s' ∧ s.events.size ≤ s'.events.size ∧ scope'.events = scope.events ∧
      ∀ id ∈ handed r, id < s'.events.size ∧ (s.events.size ≤ id ∨ id ∈ places held) := by
  induction hh generalizing scope s with
  | none =>
    cases h
    exact ⟨hext, Nat.le_refl _, rfl, nofun⟩
  | some hmem =>
    cases h
    refine ⟨hext, Nat.le_refl _, rfl, ?_⟩
    intro id hid
    have hplace := List.mem_flatMap (f := Passage.events).mpr ⟨_, hmem, hid⟩
    exact ⟨(hheld id hplace).2, .inr hplace⟩
  | fail =>
    cases h
    exact ⟨hext, Nat.le_refl _, rfl, nofun⟩
  | @play held phrase overrides inner next _ ih =>
    rw [answer_play, Option.bind_eq_some_iff] at h
    obtain ⟨⟨u, s₁⟩, hplay, hrest⟩ := h
    obtain ⟨hgrown, hids⟩ := playPhrase_counts hplayer hplay
    have hheld' : ∀ id ∈ places (Script.hold held u), s₀.events.size ≤ id ∧
        id < s₁.events.size := by
      intro id hid
      obtain hid | hid := mem_places_hold.mp hid
      · exact ⟨Nat.le_trans hext.size_le (hids id hid).1, (hids id hid).2⟩
      · exact ⟨(hheld id hid).1, Nat.lt_of_lt_of_le (hheld id hid).2 hgrown.size_le⟩
    obtain ⟨hext', hsize, hevents, hkept⟩ := ih u hheld' (hext.trans hgrown) hrest
    refine ⟨hext', Nat.le_trans hgrown.size_le hsize, hevents, ?_⟩
    intro id hid
    obtain ⟨hlt, hle | hmem⟩ := hkept id hid
    · exact ⟨hlt, .inl (Nat.le_trans hgrown.size_le hle)⟩
    · exact ⟨hlt, (mem_places_hold.mp hmem).imp_left fun h ↦ (hids id h).1⟩
  | @join held passages next hp _ ih =>
    rw [answer_join] at h
    have hlow : ∀ p ∈ passages, ∀ id ∈ p.events, s₀.events.size ≤ id := fun p hmem id hid ↦
      (hheld id (List.mem_flatMap.mpr ⟨p, hp hmem, hid⟩)).1
    have hsize : (scope.join stage passages s).2.events.size = s.events.size := join_size_pending.1
    obtain ⟨hext', hle, hevents, hkept⟩ :=
      ih _ (fun id hid ↦ hsize ▸ hheld id (mem_places_join hp hid)) (join_extends hext hlow) h
    rw [hsize] at hle hkept
    exact ⟨hext', hle, hevents, fun id hid ↦
      ⟨(hkept id hid).1, (hkept id hid).2.imp_right (mem_places_join hp)⟩⟩
  | remark _ ih =>
    rw [answer_remark] at h
    have hrest := ih hheld hext h
    exact hrest
  | settings _ ih => exact ih _ hheld hext h
  | setSettings _ ih =>
    rw [answer_setSettings] at h
    have hrest := ih hheld hext h
    exact hrest
  | trace _ ih => exact ih _ hheld hext h
  | @record held entry next _ ih =>
    rw [answer_record] at h
    split at h
    · have hrecord : s.Extends { s with trace := s.trace ++ [entry] } := .of_eq rfl rfl
      have hrest := ih _ (s := { s with trace := s.trace ++ [entry] }) hheld (hext.trans hrecord) h
      exact hrest
    · exact ih _ hheld hext h
  | progress _ ih => exact ih _ hheld hext h

end Answer

theorem Repertoire.Honest.counts {stage : Stage} (hr : stage.repertoire.Honest) :
    stage.Counts .within := by
  intro player hend hplayer name function values scope s r scope' s' hf h
  have hnone : ∀ id ∈ places [], s.events.size ≤ id ∧ id < s.events.size := nofun
  obtain ⟨hext, hle, hevents, hkept⟩ :=
    Scope.answer_honest hplayer (hr name function hf name values) hnone (.refl s) h
  refine ⟨hext, hevents, fun _ ↦ ⟨hle, ?_⟩⟩
  intro id hid
  obtain ⟨hlt, hge | hmem⟩ := hkept id hid
  · exact ⟨hge, hlt⟩
  · cases hmem

end Rendition
