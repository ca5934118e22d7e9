import Rendition.Proofs.Number.Power

namespace Rendition.Number

open Float.Model Float.Model.UnpackedFloat

theorem exists_exact {f : Float} (h : f.isFinite) : ∃ x, Exact.ofFloat? f = some x := by
  change (UnpackedFloat.unpack _ _).isFinite at h
  rw [Exact.ofFloat?_eq, show f.toBits.toNat = f.toModel.toBits.toBitVec.toNat from rfl]
  generalize f.toModel.toBits.toBitVec = b at *
  have hinf : @unpackExponent .binary64 b = -1#_ ↔ b.toNat / 2 ^ 52 % 2 ^ 11 = 2047 :=
    toNat_unpackExponent b ▸ BitVec.toNat_eq
  split
  next hfield =>
    unfold UnpackedFloat.unpack at h
    simp only [hinf, if_pos hfield] at h
    split at h <;> cases h
  next => exact ⟨_, rfl⟩

theorem Exact.exponent_le {f : Float} {x : Exact} (h : Exact.ofFloat? f = some x) :
    x.exponent ≤ 971 := by
  rw [ofFloat?_eq] at h
  split at h
  · cases h
  · cases h
    simp only
    omega

/-- Packing makes only too large an exponent infinite. -/
theorem isFinite_unpack_pack {s : Sign} {m : Nat} {e : Int} {hm : 0 < m} (h : e ≤ 971) :
    (UnpackedFloat.unpack .binary64
      (UnpackedFloat.pack .binary64 (.finite s m e hm))).isFinite := by
  have hfinite (t : BitVec 11) (n : BitVec 52) (ht : t ≠ -1#_) :
      (UnpackedFloat.unpack .binary64 (packComponents .binary64 s t n)).isFinite := by
    unfold UnpackedFloat.unpack
    simp only [unpackMantissa_packComponents, unpackExponent_packComponents, if_neg ht]
    split
    · split <;> rfl
    · rfl
  have hbiased : (BitVec.ofNat 11 (e + 1023 + 52).toNat) ≠ -1#_ := by
    rw [BitVec.toNat_ne, BitVec.toNat_ofNat]
    change (e + 1023 + 52).toNat % 2 ^ 11 ≠ 2047
    omega
  change (UnpackedFloat.unpack .binary64
    (if 2 ^ 11 ≤ (e + 1023 + 52).toNat + 1 then packedInfinity .binary64 s
    else if m.log2 + 1 = 53 then packComponents .binary64 s (BitVec.ofNat 11 (e + 1023 + 52).toNat)
      (BitVec.ofNat 52 m)
    else packComponents .binary64 s 0#_ (BitVec.ofNat 52 m))).isFinite
  rw [if_neg (by omega)]
  split
  · exact hfinite _ _ hbiased
  · exact hfinite _ _ (by decide)

section Round

variable (m k : Nat)

theorem mantissa_shiftRight : ((ExtendedMantissa.mk m false false) >>> k).mantissa = m / 2 ^ k := by
  change (k.repeat ExtendedMantissa.shiftRightOne _).mantissa = _
  induction k with
  | zero => exact (Nat.div_one m).symm
  | succ k ih =>
    rw [Nat.repeat, ExtendedMantissa.shiftRightOne, ih, Nat.div_div_eq_div_mul, Nat.pow_succ]

theorem roundBit_shiftRight (h : ((ExtendedMantissa.mk m false false) >>> k).roundBit) :
    2 ^ k ≤ 2 * (m % 2 ^ k) := by
  cases k with
  | zero => cases h
  | succ k =>
    have hbit : ((ExtendedMantissa.mk m false false) >>> k).mantissa % 2 ≠ 0 := bne_iff_ne.mp h
    rw [mantissa_shiftRight] at hbit
    have hmod : m % 2 ^ (k + 1) = m % 2 ^ k + 2 ^ k * (m / 2 ^ k % 2) := by
      rw [Nat.pow_succ, Nat.mod_mul]
    have hone : m / 2 ^ k % 2 = 1 := by omega
    rw [hmod, hone, Nat.pow_succ]
    omega

theorem rounded_le : ((ExtendedMantissa.mk m false false) >>> k).roundedMantissa * 2 ^ (k + 1) ≤
    2 * m + 2 ^ k := by
  have hup : ((ExtendedMantissa.mk m false false) >>> k).roundedMantissa ≤ m / 2 ^ k +
      if ((ExtendedMantissa.mk m false false) >>> k).roundBit then 1 else 0 := by
    rw [← mantissa_shiftRight]
    generalize (ExtendedMantissa.mk m false false) >>> k = em
    obtain ⟨n, round, sticky⟩ := em
    cases round <;> cases sticky <;>
      simp [ExtendedMantissa.roundedMantissa, ExtendedMantissa.accuracy,
        Accuracy.roundToNearestEven]
    omega
  have hbit := roundBit_shiftRight m k
  have hdiv := Nat.div_add_mod m (2 ^ k)
  rw [Nat.pow_succ]
  generalize ((ExtendedMantissa.mk m false false) >>> k).roundBit = bit at hup hbit
  generalize ((ExtendedMantissa.mk m false false) >>> k).roundedMantissa = rounded at hup
  generalize 2 ^ k = unit at *
  have hscaled := Nat.mul_le_mul_right (unit * 2) hup
  cases bit with
  | false =>
    have := Nat.zero_le (m % unit)
    simp only [Bool.false_eq_true, if_false, Nat.add_zero] at hscaled
    linarith
  | true =>
    have := hbit rfl
    simp only [if_true] at hscaled
    linarith

/-- How far a mantissa is shifted to the right to fit. -/
def excess (m : Nat) (e : Int) : Nat := (max ((m.log2 : Int) + 1 + e - 53) (-1074) - e).toNat

theorem shiftToTargetExponent_eq (m : Nat) (e : Int) : shiftToTargetExponent .binary64 m e .exact =
    (ExtendedMantissa.mk m false false >>> excess m e, e + excess m e) := rfl

theorem log2_le {n k : Nat} (h : n < 2 ^ (k + 1)) : n.log2 ≤ k := by
  obtain rfl | hn := Nat.eq_zero_or_pos n
  · exact Nat.zero_le k
  · exact Nat.le_of_lt_succ ((Nat.log2_lt hn.ne').mpr h)

/-- Half a unit of the last place beyond the largest float whose last place is `2 ^ (t + 1)`. -/
def bound (t : Nat) : Nat := 0x3fffffffffffff * 2 ^ t

theorem bound_lt (t : Nat) : bound t < 2 ^ (54 + t) := by
  rw [bound, Nat.pow_add]
  exact Nat.mul_lt_mul_of_pos_right (by decide) (Nat.two_pow_pos _)

/-- What lies below the bound does not outgrow its place when its mantissa is rounded. -/
theorem place_rounded_le {m n k t : Nat} (hk : (k : Int) + n = max ((m.log2 : Int) + n - 52) 0)
    (h : m * 2 ^ n < bound t) :
    n + k + (((ExtendedMantissa.mk m false false) >>> k).roundedMantissa.log2 - 52) ≤ t + 1 := by
  have hround := rounded_le m k
  generalize ((ExtendedMantissa.mk m false false) >>> k).roundedMantissa = r at hround ⊢
  rw [Nat.pow_succ] at hround
  have hlt : m < 2 ^ 53 * 2 ^ k := by
    have hlog : m.log2 + 1 ≤ 53 + k := by omega
    exact Nat.lt_log2_self.trans_le ((Nat.pow_le_pow_right (by decide) hlog).trans_eq
      (Nat.pow_add 2 53 k))
  have hplace : n + k ≤ t + 1 := by
    obtain rfl | hm := Nat.eq_zero_or_pos m
    · have : Nat.log2 0 = 0 := by decide
      omega
    · have hpow : 2 ^ (m.log2 + n) < 2 ^ (54 + t) := by
        refine lt_of_le_of_lt ?_ (h.trans (bound_lt t))
        rw [Nat.pow_add]
        exact Nat.mul_le_mul_right _ (Nat.log2_self_le hm.ne')
      have := (Nat.pow_lt_pow_iff_right (by decide)).mp hpow
      omega
  obtain hlast | hlast := Nat.lt_or_eq_of_le hplace
  · have hr : r < 2 ^ (53 + 1) := by
      generalize 2 ^ k = unit at *
      have : r * unit < (2 ^ 53 + 1) * unit := by linarith
      have := Nat.lt_of_mul_lt_mul_right this
      omega
    have := log2_le hr
    omega
  · have hr : r < 2 ^ (52 + 1) := by
      have hunit : 2 ^ k * 2 ^ n = 2 * 2 ^ t := by
        rw [← Nat.pow_add, Nat.add_comm k n, hlast]
        exact Nat.pow_succ'
      unfold bound at h
      generalize 2 ^ t = unit at *
      have hscaled : r * (4 * unit) ≤ 2 * (m * 2 ^ n) + 2 * unit := by
        calc r * (4 * unit) = r * (2 * (2 ^ k * 2 ^ n)) := by rw [hunit]; ring
          _ = r * (2 ^ k * 2) * 2 ^ n := by ring
          _ ≤ (2 * m + 2 ^ k) * 2 ^ n := Nat.mul_le_mul_right _ hround
          _ = 2 * (m * 2 ^ n) + 2 ^ k * 2 ^ n := by ring
          _ = 2 * (m * 2 ^ n) + 2 * unit := by rw [hunit]
      have : r * (4 * unit) < 2 ^ 53 * (4 * unit) := by linarith
      exact Nat.lt_of_mul_lt_mul_right this
    have := log2_le hr
    omega

end Round

def Fits (a : UnpackedFloat) : Prop :=
  (UnpackedFloat.unpack .binary64 (UnpackedFloat.pack .binary64 a)).isFinite

theorem fits_zero (s : Sign) : Fits (.zero s) := by
  cases s <;> rfl

theorem fits_roundWithAccuracy (s : Sign) {m n k : Nat}
    (hk : (k : Int) + n = max ((m.log2 : Int) + n - 52) 0) (h : m * 2 ^ n < bound 2044) :
    Fits (roundWithAccuracy .binary64 s m (n - 1074) .exact) := by
  have hshift : excess m (n - 1074) = k := by unfold excess; omega
  have hplace := place_rounded_le hk h
  unfold roundWithAccuracy
  rw [shiftToTargetExponent_eq, hshift]
  dsimp only
  rw [shiftToTargetExponent_eq]
  generalize ((ExtendedMantissa.mk m false false) >>> k).roundedMantissa = r at hplace ⊢
  have hlast : excess r (n - 1074 + k) = r.log2 - 52 := by unfold excess; omega
  dsimp only
  rw [hlast]
  split
  · exact fits_zero s
  · exact isFinite_unpack_pack (by omega)

theorem fits_round (s : Sign) {m n : Nat} (hm : 0 < m) (h : m * 2 ^ n < bound 2044) :
    Fits (UnpackedFloat.round .binary64 s m (n - 1074)) := by
  have htarget : Format.binary64.targetExponent (totalExponent m (n - 1074)) =
      max ((m.log2 : Int) + 1 + (n - 1074) - 53) (-1074) := rfl
  obtain ⟨d, hd⟩ :
      ∃ d : Nat, ((n : Int) - 1074 - max ((m.log2 : Int) + 1 + (n - 1074) - 53) (-1074)).toNat =
      d :=
    ⟨_, rfl⟩
  obtain ⟨n', rfl⟩ : ∃ n', n = n' + d := ⟨n - d, by omega⟩
  have hlog := log2_mul_twoPow hm d
  have hexponent : ((n' + d : Nat) : Int) - 1074 - d = n' - 1074 := by omega
  have hscale : m * 2 ^ d * 2 ^ n' = m * 2 ^ (n' + d) := by
    rw [Nat.pow_add, Nat.mul_assoc, Nat.mul_comm (2 ^ d)]
  unfold UnpackedFloat.round
  rw [htarget]
  unfold decreaseExponent
  simp only [hd, Nat.shiftLeft_eq, hexponent]
  refine fits_roundWithAccuracy s
    (k := (max (((m * 2 ^ d).log2 : Int) + n' - 52) 0 - n').toNat) ?_ (hscale.trans_lt h)
  omega

variable {f g : Float} {x y : Exact}

theorem isFinite_add (hf : Exact.ofFloat? f = some x) (hg : Exact.ofFloat? g = some y)
    (h : x.units.natAbs + y.units.natAbs < bound 2044) : (f + g).isFinite := by
  change Fits (UnpackedFloat.add .binary64 f.toModel.unpack g.toModel.unpack)
  obtain ⟨hfz, -⟩ | ⟨hxp, hfu⟩ := unpack_of_ofFloat? hf <;> obtain ⟨hgz, -⟩ | ⟨hyp, hgu⟩ :=
    unpack_of_ofFloat? hg
  · rw [hfz, hgz, UnpackedFloat.add]
    split <;> exact fits_zero _
  · rw [hfz, hgu]
    exact isFinite_unpack_pack (Exact.exponent_le hg)
  · rw [hfu, hgz]
    exact isFinite_unpack_pack (Exact.exponent_le hf)
  · have hmin : -1074 ≤ min x.exponent y.exponent :=
      le_min (Exact.canonical_of_ofFloat? hf).least (Exact.canonical_of_ofFloat? hg).least
    have hx := apply_decreaseExponent x (min_le_left x.exponent y.exponent) hmin
    have hy := apply_decreaseExponent y (min_le_right x.exponent y.exponent) hmin
    rw [hfu, hgu, UnpackedFloat.add]
    dsimp only
    obtain ⟨n, hn⟩ : ∃ n : Nat, min x.exponent y.exponent = n - 1074 :=
      ⟨(min x.exponent y.exponent + 1074).toNat, by omega⟩
    have hplace : ((n : Int) - 1074 + 1074).toNat = n := by omega
    rw [hn, hplace] at hx hy
    rw [hn]
    generalize x.sign.apply ((decreaseExponent x.significand x.exponent (n - 1074)).1 : Nat) =
      a at hx ⊢
    generalize y.sign.apply ((decreaseExponent y.significand y.exponent (n - 1074)).1 : Nat) =
      b at hy ⊢
    have hsum : (a + b).natAbs * 2 ^ n < bound 2044 := by
      have hscaled : (a + b).natAbs * 2 ^ n = (x.units + y.units).natAbs := by
        rw [← hx, ← hy, ← Int.add_mul, Int.natAbs_mul, Int.natAbs_pow]
        rfl
      exact hscaled ▸ (Int.natAbs_add_le x.units y.units).trans_lt h
    unfold UnpackedFloat.normalize
    split
    next hlt =>
      have hneg := Int.compare_eq_lt.mp hlt
      refine fits_round _ (by omega) ?_
      rwa [show (-(a + b)).toNat = (a + b).natAbs by omega]
    next => exact fits_zero _
    next hgt =>
      have hpos := Int.compare_eq_gt.mp hgt
      refine fits_round _ (by omega) ?_
      rwa [show (a + b).toNat = (a + b).natAbs by omega]

theorem natAbs_units_le (hf : Exact.ofFloat? f = some x) {t : Nat}
    (ht : x.exponent + 1074 ≤ t + 1) :
    x.units.natAbs ≤ 0x3ffffffffffffe * 2 ^ t := by
  have hlt := (Exact.canonical_of_ofFloat? hf).lt
  have hpow : 2 ^ (x.exponent + 1074).toNat ≤ 2 * 2 ^ t := by
    rw [← Nat.pow_succ']
    exact Nat.pow_le_pow_right (by decide) (by omega)
  calc x.units.natAbs = x.significand * 2 ^ (x.exponent + 1074).toNat := x.natAbs_units
    _ ≤ 0x1fffffffffffff * (2 * 2 ^ t) := Nat.mul_le_mul (by omega) hpow
    _ = 0x3ffffffffffffe * 2 ^ t := by ring

theorem le_iff (f g : Float) : f ≤ g ↔ UnpackedFloat.le f.toModel.unpack g.toModel.unpack :=
  decide_eq_true_iff

theorem lt_iff (f g : Float) : f < g ↔ UnpackedFloat.lt f.toModel.unpack g.toModel.unpack :=
  decide_eq_true_iff

theorem unpack_zero : (0 : Float).toModel.unpack = .zero .positive := rfl

theorem unpack_one : (1 : Float).toModel.unpack = .finite .positive (2 ^ 52) (-52) (by decide) :=
  rfl

theorem exists_units_le (hn : 0 ≤ g) (hle : g ≤ 1) {t : Nat} (ht : 1074 ≤ t) :
    ∃ y, Exact.ofFloat? g = some y ∧ y.units.natAbs ≤ 2 ^ t := by
  rw [le_iff, unpack_zero] at hn
  rw [le_iff, unpack_one] at hle
  have hfinite : g.isFinite := by
    change g.toModel.unpack.isFinite
    generalize g.toModel.unpack = a at *
    cases a with
    | zero | finite => rfl
    | notANumber => cases hle
    | infinity s =>
      cases s with
      | positive => cases hle
      | negative => cases hn
  obtain ⟨y, hy⟩ := exists_exact hfinite
  refine ⟨y, hy, ?_⟩
  rw [y.natAbs_units]
  obtain ⟨-, hyz⟩ | ⟨hpos, hunpack⟩ := unpack_of_ofFloat? hy
  · rw [hyz, Nat.zero_mul]
    exact Nat.zero_le _
  · rw [hunpack] at hn hle
    cases hs : y.sign with
    | negative =>
      rw [hs] at hn
      cases hn
    | positive =>
      rw [hs] at hle
      have hcompare : ((compare y.exponent (-52)).then (compare y.significand (2 ^ 52))).isLE := hle
      rw [Ordering.isLE_then_iff_or, Int.compare_eq_lt, Std.compare_eq_iff_eq,
        Nat.isLE_compare] at hcompare
      have hlt := (Exact.canonical_of_ofFloat? hy).lt
      obtain ⟨k, rfl⟩ : ∃ k, t = 53 + k := ⟨t - 53, by omega⟩
      obtain hsmall | ⟨hone, hle⟩ := hcompare
      · rw [Nat.pow_add]
        exact Nat.mul_le_mul hlt.le (Nat.pow_le_pow_right (by decide) (by omega))
      · have hsplit : 2 ^ (53 + k) = 2 ^ 52 * 2 ^ (k + 1) := by
          rw [Nat.pow_add, Nat.pow_succ']; ring
        rw [hsplit]
        exact Nat.mul_le_mul hle (Nat.pow_le_pow_right (by decide) (by omega))

theorem isFinite_add_of_mem_unit (hf : f.isFinite) (hn : 0 ≤ g) (hle : g ≤ 1) :
    (f + g).isFinite := by
  obtain ⟨x, hx⟩ := exists_exact hf
  -- The places are named, since powers of them are not to be computed.
  obtain ⟨t, ht⟩ : ∃ t, 2044 = t + 1 := ⟨2043, rfl⟩
  obtain ⟨y, hy, hyle⟩ := exists_units_le (t := t) hn hle (by omega)
  have hexponent := Exact.exponent_le hx
  have hxle := natAbs_units_le hx (t := t + 1) (by omega)
  have hpos : 0 < 2 ^ t := Nat.two_pow_pos t
  refine isFinite_add hx hy ?_
  rw [ht, bound]
  rw [Nat.pow_succ'] at hxle ⊢
  omega

theorem pos_of_not_le_zero (hf : f.isFinite) (h : ¬f ≤ 0) : 0 < f := by
  rw [le_iff, unpack_zero] at h
  rw [lt_iff, unpack_zero]
  change f.toModel.unpack.isFinite at hf
  generalize f.toModel.unpack = a at *
  cases a with
  | notANumber | infinity => cases hf
  | zero => exact absurd rfl h
  | finite s m e hm =>
    cases s with
    | positive => rfl
    | negative => exact absurd rfl h

end Rendition.Number
