import Mathlib
import Rendition.Proofs.Number.Adding
import Rendition.Proofs.Number.Laws

namespace Rendition.Number

open Float.Model Float.Model.UnpackedFloat

section Canonical

variable {x y : Exact}

/-- The number on the coarser scale is the larger, since it would fit the finer one otherwise. -/
theorem Exact.Canonical.natAbs_units_lt (hx : x.Canonical) (hy : y.Canonical)
    (h : x.exponent < y.exponent) :
    x.units.natAbs < y.units.natAbs := by
  have hleast := hx.least
  have hnormal : 2 ^ 52 ≤ y.significand := hy.normal.resolve_right (by omega)
  have hpow : 2 * 2 ^ (x.exponent + 1074).toNat ≤ 2 ^ (y.exponent + 1074).toNat := by
    rw [← Nat.pow_succ']
    exact Nat.pow_le_pow_right (by decide) (by omega)
  rw [natAbs_units, natAbs_units]
  calc x.significand * 2 ^ (x.exponent + 1074).toNat < 2 ^ 53 * 2 ^ (x.exponent + 1074).toNat :=
        Nat.mul_lt_mul_of_pos_right hx.lt (Nat.two_pow_pos _)
    _ = 2 ^ 52 * (2 * 2 ^ (x.exponent + 1074).toNat) := Nat.mul_assoc (2 ^ 52) 2 _
    _ ≤ y.significand * 2 ^ (y.exponent + 1074).toNat := Nat.mul_le_mul hnormal hpow

/-- The comparison of floats starts with their exponents, and yet it is that of their numbers. -/
theorem Exact.Canonical.compare_then (hx : x.Canonical) (hy : y.Canonical) :
    (compare x.exponent y.exponent).then (compare x.significand y.significand) =
      compare x.units.natAbs y.units.natAbs := by
  obtain hlt | heq | hgt := Int.lt_trichotomy x.exponent y.exponent
  · rw [Int.compare_eq_lt.mpr hlt, Nat.compare_eq_lt.mpr (hx.natAbs_units_lt hy hlt)]
    rfl
  · rw [Int.compare_eq_eq.mpr heq, natAbs_units, natAbs_units, heq, Ordering.then]
    have hpos := Nat.two_pow_pos (y.exponent + 1074).toNat
    obtain hlt | heq | hgt := Nat.lt_trichotomy x.significand y.significand
    · rw [Nat.compare_eq_lt.mpr hlt, Nat.compare_eq_lt.mpr (Nat.mul_lt_mul_of_pos_right hlt hpos)]
    · rw [heq, Nat.compare_eq_eq.mpr rfl, Nat.compare_eq_eq.mpr rfl]
    · rw [Nat.compare_eq_gt.mpr hgt, Nat.compare_eq_gt.mpr (Nat.mul_lt_mul_of_pos_right hgt hpos)]
  · rw [Int.compare_eq_gt.mpr hgt, Nat.compare_eq_gt.mpr (hy.natAbs_units_lt hx hgt)]
    rfl

end Canonical

section Extent

def extent (f : Float) : WithTop Nat :=
  match Exact.ofFloat? f with
  | some x => x.units.natAbs
  | none => ⊤

variable {f g h : Float} {x : Exact}

theorem extent_of_ofFloat? (hx : Exact.ofFloat? f = some x) : extent f = x.units.natAbs := by
  rw [extent, hx]

theorem ofFloat?_eq_none (h : f.toModel.unpack.isFinite = false) : Exact.ofFloat? f = none := by
  cases hx : Exact.ofFloat? f with
  | none => rfl
  | some x =>
    obtain ⟨hz, -⟩ | ⟨hpos, hu⟩ := unpack_of_ofFloat? hx
    · rw [hz] at h
      cases h
    · rw [hu] at h
      cases h

theorem extent_eq_top (h : f.toModel.unpack.isFinite = false) : extent f = ⊤ := by
  rw [extent, ofFloat?_eq_none h]

theorem nonneg_cases (h : 0 ≤ f) :
    (f.toModel.unpack = .infinity .positive ∧ extent f = ⊤) ∨
      ((∃ s, f.toModel.unpack = .zero s) ∧ extent f = 0) ∨
      ∃ x hpos, Exact.ofFloat? f = some x ∧
        f.toModel.unpack = .finite .positive x.significand x.exponent hpos ∧
        0 < x.units.natAbs ∧ extent f = x.units.natAbs := by
  rw [le_iff, unpack_zero] at h
  by_cases hfinite : f.isFinite
  · obtain ⟨x, hx⟩ := exists_exact hfinite
    have hextent := extent_of_ofFloat? hx
    obtain ⟨hz, hxz⟩ | ⟨hpos, hu⟩ := unpack_of_ofFloat? hx
    · rw [Exact.units_eq_zero.mpr hxz] at hextent
      exact .inr (.inl ⟨⟨_, hz⟩, hextent⟩)
    · have hunits : 0 < x.units.natAbs := Int.natAbs_pos.mpr (Exact.units_eq_zero.not.mpr hpos.ne')
      rw [hu] at h
      cases hs : x.sign with
      | positive => exact .inr (.inr ⟨x, hpos, hx, hs ▸ hu, hunits, hextent⟩)
      | negative =>
        rw [hs] at h
        cases h
  · have hextent := extent_eq_top (Bool.eq_false_iff.mpr hfinite)
    change ¬f.toModel.unpack.isFinite = true at hfinite
    cases hu : f.toModel.unpack with
    | notANumber =>
      rw [hu] at h
      cases h
    | zero | finite =>
      rw [hu] at hfinite
      exact absurd rfl hfinite
    | infinity s =>
      cases s with
      | positive => exact .inl ⟨rfl, hextent⟩
      | negative =>
        rw [hu] at h
        cases h

theorem exists_compares (hf : 0 ≤ f) (hg : 0 ≤ g) :
    ∃ o, UnpackedFloat.compare f.toModel.unpack g.toModel.unpack = some o ∧
    o.Compares (extent f) (extent g) := by
  obtain ⟨hfu, hfe⟩ | ⟨⟨s, hfu⟩, hfe⟩ | ⟨x, hxp, hx, hfu, hxu, hfe⟩ := nonneg_cases hf <;>
    obtain ⟨hgu, hge⟩ | ⟨⟨t, hgu⟩, hge⟩ | ⟨y, hyp, hy, hgu, hyu, hge⟩ := nonneg_cases hg <;>
    rw [hfu, hgu, hfe, hge]
  · exact ⟨.eq, rfl, rfl⟩
  · exact ⟨.gt, rfl, WithTop.coe_lt_top 0⟩
  · exact ⟨.gt, rfl, WithTop.coe_lt_top _⟩
  · exact ⟨.lt, rfl, WithTop.coe_lt_top 0⟩
  · exact ⟨.eq, rfl, rfl⟩
  · exact ⟨.lt, rfl, WithTop.coe_lt_coe.mpr hyu⟩
  · exact ⟨.lt, rfl, WithTop.coe_lt_top _⟩
  · exact ⟨.gt, rfl, WithTop.coe_lt_coe.mpr hxu⟩
  · refine ⟨_, congrArg some ((Exact.canonical_of_ofFloat? hx).compare_then
      (Exact.canonical_of_ofFloat? hy)), ?_⟩
    obtain hlt | heq | hgt := Nat.lt_trichotomy x.units.natAbs y.units.natAbs
    · rw [Nat.compare_eq_lt.mpr hlt]
      exact WithTop.coe_lt_coe.mpr hlt
    · rw [Nat.compare_eq_eq.mpr heq]
      exact congrArg _ heq
    · rw [Nat.compare_eq_gt.mpr hgt]
      exact WithTop.coe_lt_coe.mpr hgt

theorem lt_iff_extent (hf : 0 ≤ f) (hg : 0 ≤ g) : f < g ↔ extent f < extent g := by
  obtain ⟨o, ho, hcompares⟩ := exists_compares hf hg
  rw [lt_iff, UnpackedFloat.lt, ho, beq_iff_eq, Option.some.injEq, hcompares.eq_lt]

theorem le_iff_extent (hf : 0 ≤ f) (hg : 0 ≤ g) : f ≤ g ↔ extent f ≤ extent g := by
  obtain ⟨o, ho, hcompares⟩ := exists_compares hf hg
  rw [le_iff, UnpackedFloat.le, ho]
  change o.isLE = true ↔ _
  rw [← not_lt, ← hcompares.eq_gt, Ordering.isLE_iff_ne_gt]

theorem beq_iff_extent (hf : 0 ≤ f) (hg : 0 ≤ g) : f == g ↔ extent f = extent g := by
  obtain ⟨o, ho, hcompares⟩ := exists_compares hf hg
  change UnpackedFloat.beq f.toModel.unpack g.toModel.unpack ↔ _
  rw [UnpackedFloat.beq, ho, beq_iff_eq, Option.some.injEq, hcompares.eq_eq]

theorem nonneg_le_of_not_lt (hf : 0 ≤ f) (hg : 0 ≤ g) (h : ¬f < g) : g ≤ f := by
  rw [lt_iff_extent hf hg, not_lt] at h
  exact (le_iff_extent hg hf).mpr h

theorem nonneg_le_refl (h : 0 ≤ f) : f ≤ f := (le_iff_extent h h).mpr le_rfl

theorem nonneg_le_trans (hf : 0 ≤ f) (hg : 0 ≤ g) (hh : 0 ≤ h) (hfg : f ≤ g)
    (hgh : g ≤ h) : f ≤ h :=
  (le_iff_extent hf hh).mpr (((le_iff_extent hf hg).mp hfg).trans ((le_iff_extent hg hh).mp hgh))

theorem isNaN_of_nonneg (h : 0 ≤ f) : f.isNaN = false := by
  change f.toModel.unpack.isNaN = false
  obtain ⟨hu, -⟩ | ⟨⟨s, hu⟩, -⟩ | ⟨x, hpos, -, hu, -⟩ := nonneg_cases h <;> rw [hu] <;> rfl

theorem nonneg_zero : (0 : Float) ≤ 0 := by decide +kernel

end Extent

section Same

variable {f g : Float}

theorem compared_of_ne_zero (h : (f == 0) = false) :
    compared f.toModel.unpack = f.toModel.unpack := by
  cases hu : f.toModel.unpack with
  | zero s => exact absurd (beq_zero_iff.mpr ⟨s, hu⟩) (ne_true_of_eq_false h)
  | notANumber | infinity | finite => rfl

theorem Same.of_beq (h : f == g) : Same f g := by
  by_cases hf : f == 0
  · exact .inr ⟨hf, PartialEquivBEq.trans (PartialEquivBEq.symm h) hf⟩
  · have hg : ¬g == 0 := fun hg ↦ hf (PartialEquivBEq.trans h hg)
    obtain ⟨-, heq⟩ := beq_iff.mp h
    rw [compared_of_ne_zero (Bool.eq_false_iff.mpr hf),
      compared_of_ne_zero (Bool.eq_false_iff.mpr hg)] at heq
    exact .inl (by rw [← pack_toModel f, heq, pack_toModel])

theorem Same.of_le (hf : 0 ≤ f) (hg : 0 ≤ g) (h : f ≤ g) (h' : g ≤ f) : Same f g :=
  .of_beq ((beq_iff_extent hf hg).mpr
    (le_antisymm ((le_iff_extent hf hg).mp h) ((le_iff_extent hg hf).mp h')))

theorem Same.lt_iff (h : Same f g) (t : Float) : (f < t ↔ g < t) ∧ (t < f ↔ t < g) := by
  obtain rfl | ⟨hf, hg⟩ := h
  · exact ⟨Iff.rfl, Iff.rfl⟩
  · obtain ⟨s, hf⟩ := beq_zero_iff.mp hf
    obtain ⟨s', hg⟩ := beq_zero_iff.mp hg
    rw [Number.lt_iff, Number.lt_iff, Number.lt_iff, Number.lt_iff, hf, hg]
    cases t.toModel.unpack with
    | notANumber | zero => exact ⟨Iff.rfl, Iff.rfl⟩
    | infinity u | finite u => cases u <;> exact ⟨Iff.rfl, Iff.rfl⟩

theorem Same.sub (h : Same f g) (t : Float) : Same (f - t) (g - t) := by
  obtain rfl | ⟨hf, hg⟩ := h
  · exact .inl rfl
  · obtain ⟨s, hf⟩ := beq_zero_iff.mp hf
    obtain ⟨s', hg⟩ := beq_zero_iff.mp hg
    have hft :
        f - t =
        Float.ofModel (Float.Model.pack (UnpackedFloat.sub .binary64 (.zero s) t.toModel.unpack)) :=
      hf ▸ rfl
    have hgt :
        g - t = Float.ofModel (Float.Model.pack
          (UnpackedFloat.sub .binary64 (.zero s') t.toModel.unpack)) :=
      hg ▸ rfl
    cases ht : t.toModel.unpack with
    | notANumber | infinity | finite => exact .inl (by rw [hft, hgt, ht]; rfl)
    | zero u =>
      right
      rw [hft, hgt, ht]
      cases s <;> cases s' <;> cases u <;> exact ⟨rfl, rfl⟩

end Same

section Larger

variable {f g : Float} {ds : List Float}

theorem larger_eq (f g : Float) : larger f g = f ∨ larger f g = g := by
  unfold larger
  split
  · exact .inr rfl
  · exact .inl rfl

theorem isNaN_of_beq (h : f == g) : f.isNaN = false := by
  obtain ⟨hnan, -⟩ := beq_iff.mp h
  change f.toModel.unpack.isNaN = false
  cases hu : f.toModel.unpack with
  | notANumber => exact absurd (congrArg compared hu) hnan
  | infinity | zero | finite => rfl

theorem isNaN_smaller {t : Float} (ht : t.isNaN = false) : (smaller f t).isNaN = false := by
  unfold smaller
  split
  next => exact ht
  next h => exact Bool.eq_false_iff.mpr fun hf ↦ h (Bool.or_eq_true_iff.mpr (.inl hf))

theorem smaller_beq {t : Float} (ht : t.isNaN = false) (h : f == g) :
    smaller f t == smaller g t := by
  have hlt := ((Same.of_beq h).lt_iff t).2
  rw [smaller, smaller, isNaN_of_beq h, isNaN_of_beq (PartialEquivBEq.symm h), Bool.false_or,
    Bool.false_or]
  by_cases hf : t < f
  · rw [if_pos (decide_eq_true hf), if_pos (decide_eq_true (hlt.mp hf))]
    exact beq_self ht
  · rw [if_neg (mt of_decide_eq_true hf), if_neg (mt of_decide_eq_true (mt hlt.mpr hf))]
    exact h

theorem le_larger (hf : 0 ≤ f) (hg : 0 ≤ g) : f ≤ larger f g ∧ g ≤ larger f g := by
  rw [larger, isNaN_of_nonneg hf, Bool.false_or]
  split
  next h =>
    exact ⟨(le_iff_extent hf hg).mpr ((lt_iff_extent hf hg).mp (of_decide_eq_true h)).le,
      nonneg_le_refl hg⟩
  next h => exact ⟨nonneg_le_refl hf, nonneg_le_of_not_lt hf hg fun hlt ↦ h (decide_eq_true hlt)⟩

theorem foldl_larger_mem (start : Float) (ds : List Float) :
    ds.foldl larger start ∈ start :: ds := by
  induction ds generalizing start with
  | nil => exact List.mem_singleton_self start
  | cons d ds ih =>
    obtain hmem | hmem := List.mem_cons.mp (ih (larger start d))
    · rw [List.foldl_cons, hmem]
      obtain heq | heq := larger_eq start d <;> rw [heq]
      · exact List.mem_cons_self
      · exact List.mem_cons_of_mem _ List.mem_cons_self
    · exact List.mem_cons_of_mem _ (List.mem_cons_of_mem _ hmem)

theorem le_foldl_larger {start : Float} (h : ∀ d ∈ start :: ds, 0 ≤ d) :
    ∀ d ∈ start :: ds, d ≤ ds.foldl larger start := by
  induction ds generalizing start with
  | nil =>
    intro d hd
    obtain rfl := List.mem_singleton.mp hd
    exact nonneg_le_refl (h d hd)
  | cons d ds ih =>
    obtain ⟨hstart, hds⟩ := List.forall_mem_cons.mp h
    obtain ⟨hd, hds⟩ := List.forall_mem_cons.mp hds
    obtain ⟨hle, hle'⟩ := le_larger hstart hd
    have hnext : 0 ≤ larger start d := by
      obtain heq | heq := larger_eq start d <;> rw [heq]
      · exact hstart
      · exact hd
    have hall : ∀ e ∈ larger start d :: ds, 0 ≤ e := List.forall_mem_cons.mpr ⟨hnext, hds⟩
    have hmost : 0 ≤ ds.foldl larger (larger start d) := hall _ (foldl_larger_mem _ ds)
    obtain ⟨hfirst, hrest⟩ := List.forall_mem_cons.mp (ih hall)
    exact List.forall_mem_cons.mpr ⟨nonneg_le_trans hstart hnext hmost hle hfirst,
      List.forall_mem_cons.mpr ⟨nonneg_le_trans hd hnext hmost hle' hfirst, hrest⟩⟩

end Larger

end Rendition.Number
