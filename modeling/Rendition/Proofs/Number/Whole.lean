import Rendition.Proofs.Number.Range

namespace Rendition.Number

open Float.Model Float.Model.UnpackedFloat

variable {f : Float} {x : Exact} {n : Int}

/-- How many units make one. The number is named, since it is not to be computed. -/
def oneUnits : Nat := 2 ^ 1074

theorem oneUnits_pos : 0 < oneUnits := by decide +kernel

namespace Exact

theorem natAbs_units_mul (h : x.Canonical) :
    x.units.natAbs * x.denominator = x.numerator * oneUnits := by
  have hleast := h.least
  have hexp : (x.exponent + 1074).toNat + (-x.exponent).toNat = x.exponent.toNat + 1074 := by omega
  rw [natAbs_units, denominator, numerator, oneUnits, Nat.one_shiftLeft, Nat.shiftLeft_eq,
    Nat.mul_assoc, Nat.mul_assoc, ← Nat.pow_add, ← Nat.pow_add, hexp]

theorem signed_natAbs_units (x : Exact) : x.signed x.units.natAbs = x.units := by
  rw [natAbs_units]
  rfl

theorem signed_mul (x : Exact) (n m : Nat) : x.signed (n * m) = x.signed n * m := by
  unfold signed
  split
  · rw [Nat.cast_mul, Int.neg_mul]
  · exact Nat.cast_mul n m

theorem units_eq_truncate (h : x.Canonical) (hw : x.isWhole) : x.units = x.truncate * oneUnits := by
  have hdvd : x.denominator ∣ x.numerator := Nat.dvd_of_mod_eq_zero (of_decide_eq_true hw)
  have habs : x.units.natAbs = x.numerator / x.denominator * oneUnits := by
    refine Nat.eq_of_mul_eq_mul_right x.denominator_pos ?_
    rw [natAbs_units_mul h, Nat.mul_right_comm, Nat.div_mul_cancel hdvd]
  rw [← signed_natAbs_units, habs, signed_mul]
  rfl

theorem isWhole_of_units (h : x.Canonical) (hn : x.units = n * oneUnits) : x.isWhole := by
  have habs : x.units.natAbs = n.natAbs * oneUnits := by rw [hn, Int.natAbs_mul, Int.natAbs_natCast]
  have hmul : n.natAbs * x.denominator = x.numerator := by
    refine Nat.eq_of_mul_eq_mul_right oneUnits_pos ?_
    rw [← natAbs_units_mul h, habs, Nat.mul_right_comm]
  exact decide_eq_true (by rw [← hmul]; exact Nat.mul_mod_left _ _)

theorem numerator_lt_iff (h : x.Canonical) :
    x.numerator < x.denominator ↔ x.exponent < -52 ∨ x.exponent = -52 ∧ x.significand < 2 ^ 52 := by
  rw [numerator, denominator, Nat.shiftLeft_eq, Nat.one_shiftLeft]
  constructor
  · intro hlt
    by_contra hge
    have hnormal : 2 ^ 52 ≤ x.significand := h.normal.resolve_right (by omega)
    refine Nat.not_le.mpr hlt ?_
    calc 2 ^ (-x.exponent).toNat ≤ 2 ^ 52 := Nat.pow_le_pow_right (by decide) (by omega)
      _ ≤ x.significand := hnormal
      _ ≤ x.significand * 2 ^ x.exponent.toNat := Nat.le_mul_of_pos_right _ (Nat.two_pow_pos _)
  · intro hlt
    have hexponent : x.exponent.toNat = 0 := by omega
    rw [hexponent, Nat.pow_zero, Nat.mul_one]
    obtain hsmall | ⟨he, hm⟩ := hlt
    · exact h.lt.trans_le (Nat.pow_le_pow_right (by decide) (by omega))
    · rw [he]
      exact hm

theorem truncate_of_nonneg (h : x.negative = false) :
    x.truncate = (x.numerator / x.denominator : Nat) :=
  if_neg (Bool.eq_false_iff.mp h)

theorem truncate_nonpos_of_negative (h : x.negative = true) : x.truncate ≤ 0 := by
  unfold truncate signed
  rw [if_pos h]
  exact Int.neg_nonpos_of_nonneg (Int.natCast_nonneg _)

end Exact

section One

variable (h : Exact.ofFloat? f = some x)

include h

theorem truncate_of_ofFloat? : truncate f = x.truncate := by
  rw [truncate, h]
  rfl

theorem lt_one_of_negative (hs : x.negative = true) : f < 1 := by
  have hsign : x.sign = .negative := if_pos hs
  rw [lt_iff, unpack_one]
  obtain ⟨hz, -⟩ | ⟨hpos, hunpack⟩ := unpack_of_ofFloat? h
  · rw [hz]
    rfl
  · rw [hunpack, hsign]
    rfl

theorem lt_one_iff_of_nonneg (hs : x.negative = false) : f < 1 ↔ x.numerator < x.denominator := by
  have hsign : x.sign = .positive := if_neg (Bool.eq_false_iff.mp hs)
  rw [lt_iff, unpack_one]
  obtain ⟨hz, hm⟩ | ⟨hpos, hunpack⟩ := unpack_of_ofFloat? h
  · rw [hz, Exact.numerator, hm, Nat.zero_shiftLeft]
    exact iff_of_true rfl x.denominator_pos
  · rw [hunpack, hsign, Exact.numerator_lt_iff (Exact.canonical_of_ofFloat? h)]
    change (some ((compare x.exponent (-52)).then (compare x.significand (2 ^ 52))) ==
      some .lt) = true ↔ _
    rw [beq_iff_eq, Option.some.injEq, Ordering.then_eq_lt, Int.compare_eq_lt, Int.compare_eq_eq,
      Nat.compare_eq_lt]

theorem one_le_truncate_iff : 1 ≤ truncate f ↔ ¬f < 1 := by
  rw [truncate_of_ofFloat? h]
  cases hs : x.negative with
  | true =>
    have := Exact.truncate_nonpos_of_negative hs
    exact iff_of_false (by omega) (not_not.mpr (lt_one_of_negative h hs))
  | false =>
    have hdiv := Nat.le_div_iff_mul_le (x := 1) (y := x.numerator) x.denominator_pos
    rw [Nat.one_mul] at hdiv
    rw [lt_one_iff_of_nonneg h hs, Nat.not_lt, Exact.truncate_of_nonneg hs, ← hdiv]
    omega

end One

theorem one_le_truncate (hw : isWhole f) (h : ¬f < 1) : 1 ≤ truncate f := by
  obtain ⟨x, hx⟩ : ∃ x, Exact.ofFloat? f = some x :=
    Option.isSome_iff_exists.mp (Option.isSome_of_any hw)
  exact (one_le_truncate_iff hx).mpr h

def Equals (f : Float) (n : Int) : Prop := units? f = some (n * oneUnits)

theorem isWhole_iff : isWhole f ↔ ∃ n, Equals f n := by
  unfold isWhole Equals units?
  cases hx : Exact.ofFloat? f with
  | none => exact ⟨nofun, nofun⟩
  | some x =>
    have hcanonical := Exact.canonical_of_ofFloat? hx
    refine ⟨fun hw ↦ ⟨x.truncate, ?_⟩,
      fun ⟨n, hn⟩ ↦ Exact.isWhole_of_units hcanonical (Option.some.inj hn)⟩
    rw [Option.map_some, Exact.units_eq_truncate hcanonical hw]

theorem Equals.truncate_eq (h : Equals f n) : truncate f = n := by
  obtain ⟨x, hx, hn⟩ := Option.map_eq_some_iff.mp h
  have hcanonical := Exact.canonical_of_ofFloat? hx
  have htruncate := Exact.units_eq_truncate hcanonical (Exact.isWhole_of_units hcanonical hn)
  rw [truncate_of_ofFloat? hx]
  exact Int.eq_of_mul_eq_mul_right (Int.natCast_ne_zero.mpr oneUnits_pos.ne')
    (htruncate.symm.trans hn)

theorem Equals.lt_one_iff (h : Equals f n) : f < 1 ↔ n < 1 := by
  obtain ⟨x, hx, -⟩ := Option.map_eq_some_iff.mp h
  rw [← not_iff_not, ← one_le_truncate_iff hx, h.truncate_eq, Int.not_lt]

end Rendition.Number
