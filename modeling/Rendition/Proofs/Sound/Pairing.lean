import Mathlib.Data.List.Forall2
import Rendition.Proofs.Number.Equality
import Rendition.Sound.Playing

namespace Rendition

/-- Of this pitch and this volume, before it is clipped. -/
def Sound.agrees (pitch : Option Int32) (volume : Float) (sound : Sound) : Bool :=
  sound.pitch = pitch && sound.volume == volume

namespace Pending

def agrees (pitch : Option Int32) (volume : Float) (tie : Pending) : Bool :=
  tie.pitch = pitch && tie.volume == volume

variable {tie : Pending} {sound other : Sound} {ties tied : List Pending} {sounds rest : List Sound}
  {pitch : Option Int32} {volume : Float}

theorem continues_iff : tie.continues sound ↔ sound.pitch = tie.pitch ∧
    sound.volume == tie.volume := by
  rw [continues, Bool.and_eq_true, decide_eq_true_iff]

theorem agrees_eq (h : tie.continues sound) :
    tie.agrees pitch volume = sound.agrees pitch volume := by
  obtain ⟨hpitch, hvolume⟩ := continues_iff.mp h
  rw [agrees, Sound.agrees, hpitch, BEq.congr_left hvolume]

theorem continues_of_agrees (ht : tie.agrees pitch volume) (hs : sound.agrees pitch volume) :
    tie.continues sound := by
  rw [agrees, Bool.and_eq_true, decide_eq_true_iff] at ht
  rw [Sound.agrees, Bool.and_eq_true, decide_eq_true_iff] at hs
  exact continues_iff.mpr ⟨hs.1.trans ht.1.symm,
    PartialEquivBEq.trans hs.2 (PartialEquivBEq.symm ht.2)⟩

theorem ofSound_continues (event : Nat) (h : sound.volume.isNaN = false) :
    (ofSound event sound).continues sound :=
  continues_iff.mpr ⟨rfl, Number.beq_self h⟩

theorem map_event {ids : List Nat} (h : ids.length = sounds.length) :
    (List.zipWith ofSound ids sounds).map event = ids := by
  rw [List.map_zipWith]
  refine List.ext_getElem (by simp [h]) fun i hi hi' ↦ ?_
  rw [List.getElem_zipWith]
  rfl

theorem zipWith_continues {ids : List Nat} (h : ids.length = sounds.length)
    (hv : ∀ sound ∈ sounds, sound.volume.isNaN = false) :
    List.Forall₂ (fun tie sound ↦ tie.continues sound) (List.zipWith ofSound ids sounds)
      sounds := by
  induction ids generalizing sounds with
  | nil =>
    obtain rfl := List.eq_nil_of_length_eq_zero h.symm
    exact .nil
  | cons id ids ih =>
    obtain ⟨sound, sounds, rfl⟩ := List.exists_cons_of_length_eq_add_one h.symm
    obtain ⟨hsound, hsounds⟩ := List.forall_mem_cons.mp hv
    exact .cons (ofSound_continues id hsound) (ih (Nat.succ.inj h) hsounds)

/-- Events that have each found a sound, and the sounds left. Of every pitch and volume, as many
have found each other as there are on both sides. -/
structure Pairs (ties : List Pending) (sounds : List Sound) (tied : List Pending)
    (rest : List Sound) : Prop where
  tied_sublist : tied.Sublist ties
  rest_sublist : rest.Sublist sounds
  countP_tied : ∀ pitch volume, tied.countP (·.agrees pitch volume) =
    min (ties.countP (·.agrees pitch volume)) (sounds.countP (·.agrees pitch volume))
  countP_rest : ∀ pitch volume, tied.countP (·.agrees pitch volume) +
    rest.countP (·.agrees pitch volume) = sounds.countP (·.agrees pitch volume)
  taken : ∃ taken, List.Forall₂ (fun tie sound ↦ tie.continues sound) tied taken ∧
    (taken ++ rest).Perm sounds

theorem Pairs.length_eq (h : Pairs ties sounds tied rest) :
    tied.length + rest.length = sounds.length := by
  obtain ⟨taken, htaken, hperm⟩ := h.taken
  rw [htaken.length_eq, ← List.length_append, hperm.length_eq]

theorem Pairs.nil (sounds : List Sound) : Pairs [] sounds [] sounds where
  tied_sublist := .slnil
  rest_sublist := .refl sounds
  countP_tied _ _ := (Nat.zero_min _).symm
  countP_rest _ _ := Nat.zero_add _
  taken := ⟨[], .nil, .refl sounds⟩

theorem Pairs.skip (h : Pairs ties sounds tied rest)
    (hnone : ∀ sound ∈ sounds, ¬tie.continues sound) :
    Pairs (tie :: ties) sounds tied rest where
  tied_sublist := h.tied_sublist.cons tie
  rest_sublist := h.rest_sublist
  countP_tied pitch volume := by
    rw [h.countP_tied, List.countP_cons]
    split
    next ht =>
      have hzero : sounds.countP (·.agrees pitch volume) = 0 :=
        List.countP_eq_zero.mpr fun sound hmem hs ↦ hnone sound hmem (continues_of_agrees ht hs)
      omega
    next => rfl
  countP_rest := h.countP_rest
  taken := h.taken

theorem Pairs.take {before after : List Sound} (h : Pairs ties (before ++ after) tied rest)
    (hc : tie.continues sound) :
    Pairs (tie :: ties) (before ++ sound :: after) (tie :: tied) rest := by
  have hcount (pitch : Option Int32) (volume : Float) :
      (before ++ sound :: after).countP (·.agrees pitch volume) =
      (before ++ after).countP (·.agrees pitch volume) + if tie.agrees pitch volume then 1
      else 0 := by
    rw [List.countP_append, List.countP_cons, List.countP_append, agrees_eq hc, Nat.add_assoc]
  refine ⟨h.tied_sublist.cons_cons tie, ?_, fun pitch volume ↦ ?_, fun pitch volume ↦ ?_, ?_⟩
  · exact h.rest_sublist.trans
      (List.Sublist.append_left (List.sublist_cons_self sound after) before)
  · rw [hcount, List.countP_cons, List.countP_cons, h.countP_tied]
    omega
  · rw [hcount, List.countP_cons, ← h.countP_rest pitch volume]
    omega
  · obtain ⟨taken, htaken, hperm⟩ := h.taken
    exact ⟨sound :: taken, .cons hc htaken, (hperm.cons sound).trans List.perm_middle.symm⟩

theorem pairs_pair (ties : List Pending) (sounds : List Sound) :
    Pairs ties sounds (pair ties sounds).1 (pair ties sounds).2 := by
  induction ties generalizing sounds with
  | nil => exact .nil sounds
  | cons tie ties ih =>
    unfold pair
    split
    next hsome =>
      obtain ⟨sound, hmem, hc⟩ := List.any_eq_true.mp hsome
      obtain ⟨found, before, after, -, hfound, rfl, herase⟩ := List.exists_of_eraseP hmem hc
      have hpairs := ih ((before ++ found :: after).eraseP tie.continues)
      rw [herase] at hpairs ⊢
      exact hpairs.take hfound
    next hnone =>
      exact (ih sounds).skip fun sound hmem hc ↦ hnone (List.any_eq_true.mpr ⟨sound, hmem, hc⟩)

end Pending

end Rendition
