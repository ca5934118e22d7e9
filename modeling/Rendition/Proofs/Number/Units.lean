import Mathlib
import Rendition.Number.Exact

namespace Rendition.Number

open Float.Model Float.Model.UnpackedFloat

namespace Exact

/-- The number in units of the least positive float, `2 ^ -1074`, of which every finite
float is a whole number. -/
def units (x : Exact) : Int := x.signed (x.significand * 2 ^ (x.exponent + 1074).toNat)

def sign (x : Exact) : Sign := if x.negative then .negative else .positive

/-- The fields of a finite float: its significand is normal unless its exponent is the least. -/
structure Canonical (x : Exact) : Prop where
  least : -1074 ≤ x.exponent
  lt : x.significand < 2 ^ 53
  normal : 2 ^ 52 ≤ x.significand ∨ x.exponent = -1074

variable {f g : Float} {x y : Exact}

theorem ofFloat?_eq (f : Float) : ofFloat? f =
    if f.toBits.toNat / 2 ^ 52 % 2 ^ 11 = 2047 then none
    else some
      { negative := decide (2 ^ 63 ≤ f.toBits.toNat)
        significand := if f.toBits.toNat / 2 ^ 52 % 2 ^ 11 = 0 then f.toBits.toNat % 2 ^ 52
          else 2 ^ 52 + f.toBits.toNat % 2 ^ 52
        exponent := (max (f.toBits.toNat / 2 ^ 52 % 2 ^ 11) 1 : Nat) - 1075 } := by
  unfold ofFloat?
  simp only [Nat.shiftRight_eq_div_pow, Nat.one_shiftLeft]

theorem canonical_of_ofFloat? (h : ofFloat? f = some x) : x.Canonical := by
  rw [ofFloat?_eq] at h
  split at h
  · cases h
  · cases h
    constructor
    · simp only
      omega
    · simp only
      split <;> omega
    · simp only
      split <;> omega

theorem toBits_of_ofFloat? (h : ofFloat? f = some x) : f.toBits.toNat =
    (if x.negative then 2 ^ 63 else 0) +
      (if x.significand < 2 ^ 52 then 0 else (x.exponent + 1075).toNat) * 2 ^ 52 +
      x.significand % 2 ^ 52 := by
  have hlt := f.toBits.toNat_lt
  rw [ofFloat?_eq] at h
  split at h
  · cases h
  · cases h
    simp only [decide_eq_true_eq]
    split <;> split <;> split <;> omega

theorem eq_of_ofFloat? (hf : ofFloat? f = some x) (hg : ofFloat? g = some x) : f = g := by
  have hbits : f.toBits.toNat = g.toBits.toNat :=
    (toBits_of_ofFloat? hf).trans (toBits_of_ofFloat? hg).symm
  exact Float.toBits_inj.mp (UInt64.toNat.inj hbits)

theorem units_eq_apply (x : Exact) :
    x.units = x.sign.apply (x.significand * 2 ^ (x.exponent + 1074).toNat : Nat) := by
  unfold units signed sign
  cases x.negative <;> rfl

theorem natAbs_units (x : Exact) :
    x.units.natAbs = x.significand * 2 ^ (x.exponent + 1074).toNat := by
  unfold units signed
  split <;> simp [Int.natAbs_mul, Int.natAbs_pow]

theorem units_nonneg (h : x.negative = false) : 0 ≤ x.units := by
  unfold units signed
  rw [h]
  exact Int.natCast_nonneg _

theorem units_nonpos (h : x.negative = true) : x.units ≤ 0 := by
  unfold units signed
  rw [h]
  exact Int.neg_nonpos_of_nonneg (Int.natCast_nonneg _)

theorem units_eq_zero : x.units = 0 ↔ x.significand = 0 := by
  rw [← Int.natAbs_eq_zero, natAbs_units, Nat.mul_eq_zero]
  exact or_iff_left (Nat.two_pow_pos _).ne'

theorem negative_eq (h : x.units = 0 → x.negative = false) : x.negative = decide (x.units < 0) := by
  cases hn : x.negative with
  | false => exact (decide_eq_false (Int.not_lt.mpr (units_nonneg hn))).symm
  | true =>
    have hne : x.units ≠ 0 := fun h0 ↦ Bool.noConfusion (hn.symm.trans (h h0))
    exact (decide_eq_true (Int.lt_iff_le_and_ne.mpr ⟨units_nonpos hn, hne⟩)).symm

theorem Canonical.le_exponent (hx : x.Canonical) (hy : y.Canonical)
    (h : x.significand * 2 ^ (x.exponent + 1074).toNat = y.significand * 2 ^
      (y.exponent + 1074).toNat) :
    y.exponent ≤ x.exponent := by
  by_contra hlt
  have hleast := hx.least
  obtain ⟨k, hk⟩ : ∃ k, (y.exponent + 1074).toNat = (k + 1) + (x.exponent + 1074).toNat :=
    ⟨(y.exponent - x.exponent - 1).toNat, by omega⟩
  rw [hk, Nat.pow_add, ← Nat.mul_assoc] at h
  have hsig : x.significand = y.significand * 2 ^ (k + 1) :=
    Nat.eq_of_mul_eq_mul_right (Nat.two_pow_pos _) h
  have hnormal : 2 ^ 52 ≤ y.significand := hy.normal.resolve_right (by omega)
  have hdouble : 2 ^ 52 * 2 ≤ y.significand * 2 ^ (k + 1) :=
    Nat.mul_le_mul hnormal (Nat.le_self_pow (Nat.succ_ne_zero k) 2)
  have := hx.lt
  omega

theorem Canonical.eq (hx : x.Canonical) (hy : y.Canonical) (hs : x.negative = y.negative)
    (h : x.units = y.units) :
    x = y := by
  have hmul : x.significand * 2 ^ (x.exponent + 1074).toNat = y.significand * 2 ^
      (y.exponent + 1074).toNat := by
    rw [← natAbs_units, ← natAbs_units, h]
  have hexp : x.exponent = y.exponent :=
    le_antisymm (hy.le_exponent hx hmul.symm) (hx.le_exponent hy hmul)
  rw [hexp] at hmul
  obtain ⟨n, m, e⟩ := x
  obtain ⟨n', m', e'⟩ := y
  obtain rfl : n = n' := hs
  obtain rfl : e = e' := hexp
  obtain rfl : m = m' := Nat.eq_of_mul_eq_mul_right (Nat.two_pow_pos _) hmul
  rfl

end Exact

/-- A float stands for a whole number of units, and is not negative zero. -/
def Reads (f : Float) (n : Int) : Prop :=
  ∃ x, Exact.ofFloat? f = some x ∧ x.units = n ∧ (n = 0 → x.negative = false)

theorem Reads.eq {f g : Float} {n : Int} (hf : Reads f n) (hg : Reads g n) : f = g := by
  obtain ⟨x, hx, rfl, hxz⟩ := hf
  obtain ⟨y, hy, hyn, hyz⟩ := hg
  have hsign : x.negative = y.negative := by
    rw [Exact.negative_eq hxz, Exact.negative_eq fun h ↦ hyz (hyn ▸ h), hyn]
  have hxy : x = y :=
    (Exact.canonical_of_ofFloat? hx).eq (Exact.canonical_of_ofFloat? hy) hsign hyn.symm
  exact Exact.eq_of_ofFloat? hx (hxy ▸ hy)

section Fields

variable (b : BitVec 64)

theorem toNat_unpackMantissa : (@unpackMantissa .binary64 b).toNat = b.toNat % 2 ^ 52 := by
  simp [unpackMantissa]

theorem toNat_unpackExponent : (@unpackExponent .binary64 b).toNat = b.toNat / 2 ^ 52 % 2 ^ 11 := by
  simp [unpackExponent, Nat.shiftRight_eq_div_pow]

theorem toNat_unpackSign : (@unpackSign .binary64 b).toNat = b.toNat / 2 ^ 63 % 2 := by
  simp [unpackSign, Nat.shiftRight_eq_div_pow]

end Fields

variable {f : Float} {x : Exact}

theorem ofBitVec_unpackSign (b : BitVec 64) :
    Sign.ofBitVec (@unpackSign .binary64 b) = if 2 ^ 63 ≤ b.toNat then .negative
    else .positive := by
  have hzero : @unpackSign .binary64 b = 0#1 ↔ b.toNat / 2 ^ 63 % 2 = 0 :=
    toNat_unpackSign b ▸ BitVec.toNat_eq
  have hlt : b.toNat < 2 ^ 64 := b.isLt
  unfold Sign.ofBitVec
  simp only [hzero]
  split <;> split <;> first | rfl | (exfalso; omega)

theorem unpack_of_ofFloat? (h : Exact.ofFloat? f = some x) :
    f.toModel.unpack = .zero x.sign ∧ x.significand = 0 ∨
      ∃ hpos, f.toModel.unpack = .finite x.sign x.significand x.exponent hpos := by
  change UnpackedFloat.unpack _ _ = _ ∧ _ ∨ ∃ _, UnpackedFloat.unpack _ _ = _
  rw [Exact.ofFloat?_eq, show f.toBits.toNat = f.toModel.toBits.toBitVec.toNat from rfl] at h
  generalize f.toModel.toBits.toBitVec = b at *
  have hm := toNat_unpackMantissa b
  have he := toNat_unpackExponent b
  have hmz : @unpackMantissa .binary64 b = 0#_ ↔ b.toNat % 2 ^ 52 = 0 := hm ▸ BitVec.toNat_eq
  have hez : @unpackExponent .binary64 b = 0#_ ↔ b.toNat / 2 ^ 52 % 2 ^ 11 = 0 :=
    he ▸ BitVec.toNat_eq
  have hei : @unpackExponent .binary64 b = -1#_ ↔ b.toNat / 2 ^ 52 % 2 ^ 11 = 2047 :=
    he ▸ BitVec.toNat_eq
  have himplicit : (1#1 ++ @unpackMantissa .binary64 b).toNat = 2 ^ 52 + b.toNat % 2 ^ 52 := by
    rw [BitVec.toNat_append, ← Nat.shiftLeft_add_eq_or_of_lt (@unpackMantissa .binary64 b).isLt, hm]
    rfl
  split at h
  · cases h
  rename_i hfield
  cases h
  unfold UnpackedFloat.unpack
  simp only [Exact.sign, decide_eq_true_eq, ofBitVec_unpackSign, hei, hez, hmz, hm, he, himplicit,
    if_neg hfield]
  by_cases hf : b.toNat / 2 ^ 52 % 2 ^ 11 = 0
  · by_cases hz : b.toNat % 2 ^ 52 = 0
    · left
      simp only [if_pos hf, dif_pos hz]
      exact ⟨trivial, hz⟩
    · right
      simp only [dif_neg hz, hf]
      exact ⟨Nat.pos_of_ne_zero hz, rfl⟩
  · right
    have hmax : max (b.toNat / 2 ^ 52 % 2 ^ 11) 1 = b.toNat / 2 ^ 52 % 2 ^ 11 := by omega
    simp only [if_neg hf, hmax]
    exact ⟨by omega, rfl⟩

def units? (f : Float) : Option Int := (Exact.ofFloat? f).map Exact.units

/-- The sum of two finite floats is the sum of their numbers. -/
def ExactSum (f g : Float) : Prop :=
  (units? (f + g)).isSome ∧ units? (f + g) = (units? f).bind fun n ↦ (units? g).map (n + ·)

instance (f g : Float) : Decidable (ExactSum f g) := inferInstanceAs (Decidable (_ ∧ _))

theorem apply_decreaseExponent (x : Exact) {e : Int} (hle : e ≤ x.exponent) (h : -1074 ≤ e) :
    x.sign.apply ((decreaseExponent x.significand x.exponent e).1 : Nat) * 2 ^ (e + 1074).toNat =
      x.units := by
  have hexp : (x.exponent + 1074).toNat = (x.exponent - e).toNat + (e + 1074).toNat := by omega
  rw [Exact.units_eq_apply, hexp, Nat.pow_add, ← Nat.mul_assoc, decreaseExponent, Nat.shiftLeft_eq]
  cases x.sign <;> simp [Sign.apply]

theorem add_eq_zero {f g : Float} {x y : Exact} (hf : Exact.ofFloat? f = some x)
    (hg : Exact.ofFloat? g = some y) (hx : x.units = 0 → x.negative = false)
    (h : x.units + y.units = 0) : f + g = 0 := by
  have hadd : UnpackedFloat.add .binary64 f.toModel.unpack g.toModel.unpack = .zero .positive := by
    obtain ⟨hfz, hxz⟩ | ⟨hxp, hfu⟩ := unpack_of_ofFloat? hf <;>
      obtain ⟨hgz, hyz⟩ | ⟨hyp, hgu⟩ := unpack_of_ofFloat? hg
    · have hsign : x.sign = .positive := by rw [Exact.sign, hx (Exact.units_eq_zero.mpr hxz)]; rfl
      rw [hfz, hgz, hsign]
      cases y.sign <;> rfl
    · have := Exact.units_eq_zero.mpr hxz
      have := Exact.units_eq_zero (x := y).not.mpr hyp.ne'
      omega
    · have := Exact.units_eq_zero.mpr hyz
      have := Exact.units_eq_zero (x := x).not.mpr hxp.ne'
      omega
    · -- Significands that cancel at the common scale normalize to positive zero.
      have hmin : -1074 ≤ min x.exponent y.exponent :=
        le_min (Exact.canonical_of_ofFloat? hf).least (Exact.canonical_of_ofFloat? hg).least
      rw [← apply_decreaseExponent x (min_le_left _ _) hmin,
        ← apply_decreaseExponent y (min_le_right _ _) hmin, ← Int.add_mul, Int.mul_eq_zero] at h
      have hsum := h.resolve_right (Int.pow_ne_zero (by decide))
      rw [hfu, hgu, UnpackedFloat.add]
      simp only
      rw [hsum]
      rfl
  change Float.ofModel (Float.Model.pack
    (UnpackedFloat.add .binary64 f.toModel.unpack g.toModel.unpack)) = _
  rw [hadd]
  rfl

theorem reads_zero : Reads 0 0 := ⟨⟨false, 0, -1074⟩, by decide +kernel, rfl, fun _ ↦ rfl⟩

theorem Reads.units? {f : Float} {n : Int} (h : Reads f n) : units? f = some n := by
  obtain ⟨x, hx, rfl, -⟩ := h
  rw [Number.units?, hx]
  rfl

theorem Reads.add {f g : Float} {n : Int} (h : Reads f n) (hsum : ExactSum f g) :
    ∃ m, Number.units? g = some m ∧ Reads (f + g) (n + m) := by
  obtain ⟨hsome, hunits⟩ := hsum
  rw [h.units?, Option.bind_some] at hunits
  obtain ⟨x, hx, rfl, hxz⟩ := h
  cases hg : Exact.ofFloat? g with
  | none => rw [hunits, Number.units?, hg] at hsome; cases hsome
  | some y =>
    rw [Number.units?, Number.units?, hg] at hunits
    obtain ⟨z, hz, hzu⟩ := Option.map_eq_some_iff.mp hunits
    refine ⟨y.units, by rw [Number.units?, hg]; rfl, z, hz, hzu, ?_⟩
    intro hzero
    rw [add_eq_zero hx hg hxz hzero] at hz
    obtain ⟨z', hz', -, hneg⟩ := reads_zero
    obtain rfl := Option.some.inj (hz'.symm.trans hz)
    exact hneg rfl

theorem beq_zero {f : Float} {n : Int} (h : units? f = some n) : (f == 0) = decide (n = 0) := by
  obtain ⟨x, hx, rfl⟩ := Option.map_eq_some_iff.mp h
  have hzero : (0 : Float).toModel.unpack = .zero .positive := rfl
  change UnpackedFloat.beq f.toModel.unpack (0 : Float).toModel.unpack = _
  rw [hzero]
  obtain ⟨hfz, hxz⟩ | ⟨hxp, hfu⟩ := unpack_of_ofFloat? hx
  · rw [hfz, decide_eq_true (Exact.units_eq_zero.mpr hxz)]
    rfl
  · rw [hfu, decide_eq_false (Exact.units_eq_zero.not.mpr hxp.ne')]
    cases x.sign <;> rfl

end Rendition.Number
