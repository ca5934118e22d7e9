import Rendition.Proofs.Number.Order

namespace Rendition.Number

open Float.Model Float.Model.UnpackedFloat

section Magnitude

theorem abs_unpack_packComponents (s : Sign) (e : BitVec 11) (m : BitVec 52) :
    (unpack .binary64 (packComponents .binary64 s e m)).abs =
      unpack .binary64 (packComponents .binary64 .positive e m) := by
  unfold UnpackedFloat.unpack
  simp only [unpackMantissa_packComponents, unpackExponent_packComponents,
    unpackSign_packComponents, Sign.ofBitVec_toBitVec]
  split
  · split <;> rfl
  · split
    · split <;> rfl
    · rfl

theorem exists_packComponents {m : Nat} {e : Int} (hm : 0 < m) :
    ∃ t n, ∀ s, pack .binary64 (.finite s m e hm) = packComponents .binary64 s t n := by
  unfold UnpackedFloat.pack
  simp only
  split_ifs
  · exact ⟨_, _, fun s ↦ rfl⟩
  · exact ⟨_, _, fun s ↦ rfl⟩
  · exact ⟨_, _, fun s ↦ rfl⟩

theorem abs_unpack_pack (a : UnpackedFloat) :
    (unpack .binary64 (pack .binary64 a)).abs = unpack .binary64 (pack .binary64 a.abs) := by
  cases a with
  | notANumber => rfl
  | infinity s => exact abs_unpack_packComponents s _ _
  | zero s => exact abs_unpack_packComponents s _ _
  | finite s m e hm =>
    obtain ⟨t, n, hpack⟩ := exists_packComponents (e := e) hm
    change _ = unpack .binary64 (pack .binary64 (.finite .positive m e hm))
    rw [hpack, hpack]
    exact abs_unpack_packComponents s t n

theorem abs_round (s t : Sign) (m : Nat) (e : Int) :
    (UnpackedFloat.round .binary64 s m e).abs = (UnpackedFloat.round .binary64 t m e).abs := by
  unfold UnpackedFloat.round roundWithAccuracy
  dsimp only
  split <;> rfl

theorem abs_normalize_neg (n e : Int) :
    (UnpackedFloat.normalize .binary64 (-n) e .positive).abs =
      (UnpackedFloat.normalize .binary64 n e .positive).abs := by
  unfold UnpackedFloat.normalize
  obtain hlt | rfl | hgt := Int.lt_trichotomy n 0
  · rw [Int.compare_eq_lt.mpr hlt, Int.compare_eq_gt.mpr (Int.neg_pos_of_neg hlt)]
    exact abs_round ..
  · rfl
  · rw [Int.compare_eq_gt.mpr hgt, Int.compare_eq_lt.mpr (Int.neg_neg_of_pos hgt), Int.neg_neg]
    exact abs_round ..

theorem unpacked_abs_sub_swap (a b : UnpackedFloat) :
    (UnpackedFloat.sub .binary64 a b).abs = (UnpackedFloat.sub .binary64 b a).abs := by
  cases a with
  | notANumber => cases b <;> rfl
  | infinity s =>
    cases b with
    | infinity t => cases s <;> cases t <;> rfl
    | notANumber | zero | finite => rfl
  | zero s =>
    cases b with
    | zero t => cases s <;> cases t <;> rfl
    | notANumber | infinity | finite => rfl
  | finite s m e hm =>
    cases b with
    | finite t n d hn =>
      simp only [UnpackedFloat.sub]
      rw [min_comm, ← abs_normalize_neg, Int.neg_sub]
    | notANumber | infinity | zero => rfl

theorem abs_sub_eq (f g : Float) : (f - g).abs = Float.ofModel (Float.Model.pack
    (unpack .binary64 (pack .binary64
      (UnpackedFloat.sub .binary64 f.toModel.unpack g.toModel.unpack).abs))) := by
  rw [← abs_unpack_pack]
  rfl

theorem abs_sub_swap (f g : Float) : (f - g).abs = (g - f).abs := by
  rw [abs_sub_eq, abs_sub_eq, unpacked_abs_sub_swap]

theorem same_abs {f : Float} (h : 0 ≤ f) : Same f.abs f := by
  have habs : f.abs = Float.ofModel (Float.Model.pack f.toModel.unpack.abs) := rfl
  obtain ⟨hu, -⟩ | ⟨⟨s, hu⟩, -⟩ | ⟨x, hpos, -, hu, -⟩ := nonneg_cases h
  · left
    rw [habs, hu]
    change Float.ofModel (Float.Model.pack (.infinity .positive)) = _
    rw [← hu, pack_toModel]
  · right
    refine ⟨?_, beq_zero_iff.mpr ⟨s, hu⟩⟩
    rw [habs, hu]
    change (Float.ofModel (Float.Model.pack (.zero .positive)) == 0) = true
    rfl
  · left
    rw [habs, hu]
    change Float.ofModel (Float.Model.pack (.finite .positive x.significand x.exponent hpos)) = _
    rw [← hu, pack_toModel]

end Magnitude

section Difference

variable {f g t : Float}

theorem unpack_sub (f g : Float) : (f - g).toModel.unpack = UnpackedFloat.unpack .binary64
    (UnpackedFloat.pack .binary64
      (UnpackedFloat.sub .binary64 f.toModel.unpack g.toModel.unpack)) := rfl

theorem unpack_eq_of_isNaN (h : f.isNaN) : f.toModel.unpack = .notANumber := by
  change f.toModel.unpack.isNaN = true at h
  cases hu : f.toModel.unpack with
  | notANumber => rfl
  | infinity | zero | finite =>
    rw [hu] at h
    cases h

theorem abs_of_isNaN (h : f.isNaN) : f.abs.isNaN := by
  have habs : f.abs = Float.ofModel (Float.Model.pack f.toModel.unpack.abs) := rfl
  rw [habs, unpack_eq_of_isNaN h]
  rfl

theorem not_lt_of_isNaN (h : f.isNaN) : ¬f < t ∧ ¬t < f ∧ (f == t) = false := by
  have hf := unpack_eq_of_isNaN h
  rw [lt_iff, lt_iff]
  change _ ∧ _ ∧ UnpackedFloat.beq f.toModel.unpack t.toModel.unpack = false
  rw [hf]
  cases t.toModel.unpack <;> exact ⟨Bool.false_ne_true, Bool.false_ne_true, rfl⟩

theorem isNaN_sub_self (h : f.isInf) : (f - f).isNaN := by
  change f.toModel.unpack.isInf = true at h
  change (f - f).toModel.unpack.isNaN = true
  rw [unpack_sub]
  cases hu : f.toModel.unpack with
  | infinity s => cases s <;> rfl
  | notANumber | zero | finite =>
    rw [hu] at h
    cases h

theorem nonneg_of_signed {a : UnpackedFloat} (hs : Signed .positive a) (hn : a.isNaN = false) :
    UnpackedFloat.le (.zero .positive) a := by
  cases a with
  | notANumber => cases hn
  | infinity s | zero s | finite s =>
    obtain rfl : s = .positive := hs
    rfl

theorem nonneg_unpack_pack {a : UnpackedFloat} (h : UnpackedFloat.le (.zero .positive) a) :
    UnpackedFloat.le (.zero .positive) (unpack .binary64 (pack .binary64 a)) := by
  cases a with
  | notANumber => cases h
  | zero s => cases s <;> rfl
  | infinity s =>
    cases s with
    | positive => rfl
    | negative => cases h
  | finite s m e hm =>
    obtain rfl : s = .positive := by
      cases s with
      | positive => rfl
      | negative => cases h
    have hsigned :
        Signed .positive (unpack .binary64 (pack .binary64 (.finite .positive m e hm))) :=
      Signed.unpack_pack (a := .finite .positive m e hm) rfl
    refine nonneg_of_signed hsigned ?_
    obtain hlarge | hle := lt_or_ge 971 e
    · rw [unpack_pack_overflow _ hm hlarge]
      rfl
    · have hfinite : (unpack .binary64 (pack .binary64 (.finite .positive m e hm))).isFinite :=
        isFinite_unpack_pack hle
      generalize unpack .binary64 (pack .binary64 (.finite .positive m e hm)) = b at *
      cases b with
      | notANumber => cases hfinite
      | infinity | zero | finite => rfl

theorem nonneg_normalize (n : Nat) (e : Int) :
    UnpackedFloat.le (.zero .positive) (UnpackedFloat.normalize .binary64 n e .positive) := by
  unfold UnpackedFloat.normalize
  split
  next hlt => exact absurd (Int.compare_eq_lt.mp hlt) (by omega)
  next => rfl
  next =>
    refine nonneg_of_signed (Signed.roundWithAccuracy _ _ _ _ _) ?_
    unfold UnpackedFloat.round roundWithAccuracy
    dsimp only
    split <;> rfl

theorem decreaseExponent_mul {x : Exact} {e : Int} (hle : e ≤ x.exponent) (h : -1074 ≤ e) :
    (decreaseExponent x.significand x.exponent e).1 * 2 ^ (e + 1074).toNat = x.units.natAbs := by
  rw [← apply_decreaseExponent x hle h, Int.natAbs_mul, Int.natAbs_pow]
  cases x.sign <;> simp [Sign.apply]

theorem sub_cases (hg : 0 ≤ g) (hf : 0 ≤ f) (hle : g ≤ f) : f.isInf ∧ (f - g).isNaN ∨
    0 ≤ f - g := by
  have hextent := (le_iff_extent hg hf).mp hle
  have hnonneg : UnpackedFloat.le (.zero .positive)
      (UnpackedFloat.sub .binary64 f.toModel.unpack g.toModel.unpack) → 0 ≤ f - g :=
    fun hsub ↦ (le_iff ..).mpr (nonneg_unpack_pack hsub)
  obtain ⟨hfu, hfe⟩ | ⟨⟨s, hfu⟩, hfe⟩ | ⟨x, hxp, hx, hfu, hxu, hfe⟩ := nonneg_cases hf <;>
    obtain ⟨hgu, hge⟩ | ⟨⟨t, hgu⟩, hge⟩ | ⟨y, hyp, hy, hgu, hyu, hge⟩ := nonneg_cases hg <;>
    rw [hfe, hge] at hextent <;> rw [hfu, hgu] at hnonneg
  · left
    change f.toModel.unpack.isInf = true ∧ (f - g).toModel.unpack.isNaN = true
    rw [unpack_sub, hfu, hgu]
    exact ⟨rfl, rfl⟩
  · exact .inr (hnonneg rfl)
  · exact .inr (hnonneg rfl)
  · exact absurd hextent (WithTop.coe_lt_top 0).not_ge
  · exact .inr (hnonneg (by cases s <;> cases t <;> rfl))
  · exact absurd hextent (WithTop.coe_lt_coe.mpr hyu).not_ge
  · exact absurd hextent (WithTop.coe_lt_top _).not_ge
  · exact .inr (hnonneg rfl)
  · right
    apply hnonneg
    have hmin : -1074 ≤ min x.exponent y.exponent :=
      le_min (Exact.canonical_of_ofFloat? hx).least (Exact.canonical_of_ofFloat? hy).least
    have hxm := decreaseExponent_mul (min_le_left x.exponent y.exponent) hmin
    have hym := decreaseExponent_mul (min_le_right x.exponent y.exponent) hmin
    have hle : y.units.natAbs ≤ x.units.natAbs := WithTop.coe_le_coe.mp hextent
    rw [← hxm, ← hym] at hle
    have hmantissa := Nat.le_of_mul_le_mul_right hle (Nat.two_pow_pos _)
    simp only [UnpackedFloat.sub, Sign.apply]
    rw [← Int.ofNat_sub hmantissa]
    exact nonneg_normalize _ _

theorem lt_abs_sub_iff (hg : 0 ≤ g) (hf : 0 ≤ f) (hle : g ≤ f) (t : Float) :
    t < (f - g).abs ↔ t < f - g := by
  obtain ⟨-, hnan⟩ | hnonneg := sub_cases hg hf hle
  · exact iff_of_false (not_lt_of_isNaN (abs_of_isNaN hnan)).2.1 (not_lt_of_isNaN hnan).2.1
  · exact ((same_abs hnonneg).lt_iff t).2

theorem isFinite_of_not_isInf (h : 0 ≤ f) (hinf : ¬f.isInf) : f.isFinite := by
  change ¬f.toModel.unpack.isInf = true at hinf
  change f.toModel.unpack.isFinite = true
  obtain ⟨hu, -⟩ | ⟨⟨s, hu⟩, -⟩ | ⟨x, hpos, -, hu, -⟩ := nonneg_cases h <;> rw [hu] at hinf ⊢
  · exact absurd rfl hinf
  · rfl
  · rfl

theorem isFinite_of_beq (h : f == g) (hf : f.isFinite) : g.isFinite := by
  obtain rfl | ⟨-, hzero⟩ := Same.of_beq h
  · exact hf
  · obtain ⟨s, hu⟩ := beq_zero_iff.mp hzero
    change g.toModel.unpack.isFinite = true
    rw [hu]
    rfl

theorem sub_beq_zero (h : f == g) (hf : f.isFinite) : f - g == 0 := by
  obtain heq | ⟨heq, -⟩ := sub_self (isFinite_of_beq h hf) ▸ (Same.of_beq h).sub g
  · rw [heq]
    rfl
  · exact heq

/-- What is not closer than a bound is farther, or just as far, or infinite like the other. -/
theorem not_abs_sub_lt_iff (hg : 0 ≤ g) (hf : 0 ≤ f) (hle : g ≤ f) (ht : 0 ≤ t) :
    ¬(g - f).abs < t ↔ t < f - g ∨ (f - g).isNaN ∨ f - g == t := by
  rw [abs_sub_swap]
  obtain ⟨-, hnan⟩ | hnonneg := sub_cases hg hf hle
  · exact iff_of_true (not_lt_of_isNaN (abs_of_isNaN hnan)).1 (.inr (.inl hnan))
  · rw [((same_abs hnonneg).lt_iff t).1, isNaN_of_nonneg hnonneg, lt_iff_extent hnonneg ht,
      lt_iff_extent ht hnonneg, beq_iff_extent hnonneg ht, not_lt, le_iff_lt_or_eq]
    simp only [Bool.false_eq_true, false_or, eq_comm]

end Difference

end Rendition.Number
