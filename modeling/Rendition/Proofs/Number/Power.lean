import Rendition.Proofs.Number.Sign

namespace Rendition.Number

open Float.Model Float.Model.UnpackedFloat

theorem shiftRight_exact (m k : Nat) :
    (ExtendedMantissa.mk (m * 2 ^ k) false false) >>> k = ⟨m, false, false⟩ := by
  change k.repeat ExtendedMantissa.shiftRightOne _ = _
  induction k generalizing m with
  | zero => rw [Nat.pow_zero, Nat.mul_one]; rfl
  | succ k ih =>
    rw [Nat.repeat, Nat.pow_succ', ← Nat.mul_assoc, ih]
    simp [ExtendedMantissa.shiftRightOne]

theorem log2_mul_twoPow {m : Nat} (hm : 0 < m) (k : Nat) : (m * 2 ^ k).log2 = m.log2 + k := by
  induction k with
  | zero => simp
  | succ k ih =>
    have hne : m * 2 ^ k ≠ 0 := (Nat.mul_pos hm (Nat.two_pow_pos k)).ne'
    rw [Nat.pow_succ', Nat.mul_left_comm, Nat.log2_two_mul hne, ih, Nat.add_assoc]

theorem roundWithAccuracy_exact (s : Sign) {m k : Nat} {e : Int} (hm : 0 < m)
    (h : Format.binary64.targetExponent (totalExponent m (e + k)) = e + k) :
    roundWithAccuracy .binary64 s (m * 2 ^ k) e .exact = .finite s m (e + k) hm := by
  have hte : totalExponent (m * 2 ^ k) e = totalExponent m (e + k) := by
    unfold totalExponent
    rw [log2_mul_twoPow hm]
    omega
  have hfirst : shiftToTargetExponent .binary64 (m * 2 ^ k) e .exact = (⟨m, false, false⟩,
      e + k) := by
    rw [shiftToTargetExponent, hte, h, shiftToExponent]
    have hk : (e + (k : Int) - e).toNat = k := by omega
    simp only [hk]
    rw [ExtendedMantissa.ofMantissaAndAccuracy, shiftRight_exact]
  have hsecond : shiftToTargetExponent .binary64 m (e + k) .exact = (⟨m, false, false⟩, e + k) := by
    rw [shiftToTargetExponent, h, shiftToExponent]
    simp only [Int.sub_self, Int.toNat_zero]
    rw [ExtendedMantissa.ofMantissaAndAccuracy]
    exact congrArg (Prod.mk _) (Int.add_zero _)
  have hfinal : ∀ p : ExtendedMantissa × Int, p = (⟨m, false, false⟩, e + k) →
      (if h : p.1.mantissa = 0 then .zero s
        else .finite s p.1.mantissa p.2 (Nat.pos_of_ne_zero h)) =
        UnpackedFloat.finite s m (e + k) hm := by
    rintro _ rfl
    exact dif_neg hm.ne'
  unfold roundWithAccuracy
  rw [hfirst]
  exact hfinal _ hsecond

theorem log2_twoPow : (2 ^ 52).log2 = 52 := by decide +kernel

def IsPower (f : Float) (e : Int) : Prop :=
  f.toModel.unpack = .finite .positive (2 ^ 52) e (by decide)

theorem IsPower.double {f : Float} {e : Int} (h : IsPower f e) (hle : -52 ≤ e) :
    e ≤ 970 ∧ IsPower (2 * f) (e + 1) ∨ (2 * f).toModel.unpack = .infinity .positive := by
  have htwo : (2 : Float).toModel.unpack = .finite .positive (2 ^ 52) (-51) (by decide) := rfl
  have hexact : roundWithAccuracy .binary64 .positive (2 ^ 52 * 2 ^ 52) (-51 + e) .exact =
      .finite .positive (2 ^ 52) (-51 + e + 52) (by decide) := by
    refine roundWithAccuracy_exact .positive (by decide) ?_
    simp only [Format.targetExponent, totalExponent, log2_twoPow, Format.mantissaBits,
      Format.minExponent]
    omega
  have hproduct :
      (2 * f).toModel.unpack = UnpackedFloat.unpack .binary64
      (UnpackedFloat.pack .binary64 (.finite .positive (2 ^ 52) (-51 + e + 52) (by decide))) := by
    rw [← hexact]
    change UnpackedFloat.unpack .binary64 (UnpackedFloat.pack .binary64
      (UnpackedFloat.mul .binary64 (2 : Float).toModel.unpack f.toModel.unpack)) = _
    rw [htwo, h]
    rfl
  rw [IsPower, hproduct]
  obtain hle' | hlt := lt_or_ge 970 e
  · right
    exact unpack_pack_overflow _ _ (by omega)
  · left
    refine ⟨hlt, ?_⟩
    rw [unpack_pack_normal _ _ (by decide) (by decide) (by omega) (by omega)]
    congr 1
    omega

theorem IsPower.reciprocal {f : Float} {e : Int} (h : IsPower f e) (hle : -52 ≤ e)
    (hle' : e ≤ 971) :
    ∃ m e', ∃ hm : 0 < m, m ≤ 2 ^ 52 ∧ e' ≤ -52 ∧
      (1 / f).toModel.unpack = .finite .positive m e' hm := by
  have hone : (1 : Float).toModel.unpack = .finite .positive (2 ^ 52) (-52) (by decide) := rfl
  have hquotient :
      (1 / f).toModel.unpack = UnpackedFloat.unpack .binary64 (UnpackedFloat.pack .binary64
        (UnpackedFloat.div .binary64 (.finite .positive (2 ^ 52) (-52) (by decide))
          (.finite .positive (2 ^ 52) e (by decide)))) := by
    change UnpackedFloat.unpack .binary64 (UnpackedFloat.pack .binary64
      (UnpackedFloat.div .binary64 (1 : Float).toModel.unpack f.toModel.unpack)) = _
    rw [hone, h]
  obtain hnormal | rfl | rfl : e ≤ 969 ∨ e = 970 ∨ e = 971 := by omega
  · have hcore : divCore .binary64 (2 ^ 52) (-52) (2 ^ 52) e = (2 ^ 52 * 2 ^ 1, -105 - e,
        .exact) := by
      have htarget : min (-52 - e) (Format.binary64.targetExponent
          (totalExponent (2 ^ 52) (-52) - totalExponent (2 ^ 52) e)) = -105 - e := by
        simp only [Format.targetExponent, totalExponent, log2_twoPow, Format.mantissaBits,
          Format.minExponent]
        omega
      have hshift : (-52 - e - (-105 - e)).toNat = 53 := by omega
      unfold divCore
      simp only [htarget, hshift]
      rfl
    have hexact : roundWithAccuracy .binary64 .positive (2 ^ 52 * 2 ^ 1) (-105 - e) .exact =
        .finite .positive (2 ^ 52) (-105 - e + 1) (by decide) := by
      refine roundWithAccuracy_exact .positive (by decide) ?_
      simp only [Format.targetExponent, totalExponent, log2_twoPow, Format.mantissaBits,
        Format.minExponent]
      omega
    refine ⟨2 ^ 52, -105 - e + 1, by decide, Nat.le_refl _, by omega, ?_⟩
    rw [hquotient, UnpackedFloat.div, hcore]
    change UnpackedFloat.unpack .binary64 (UnpackedFloat.pack .binary64
      (roundWithAccuracy .binary64 .positive (2 ^ 52 * 2 ^ 1) (-105 - e) .exact)) = _
    rw [hexact, unpack_pack_normal _ _ (by decide) (by decide) (by omega) (by omega)]
  · exact ⟨2 ^ 52, -1074, by decide, by decide, by decide, hquotient.trans rfl⟩
  · exact ⟨2 ^ 51, -1074, by decide, by decide, by decide, hquotient.trans rfl⟩

theorem hasSign_two_sub {f : Float} {m : Nat} {e : Int} (hm : 0 < m) (hle : m ≤ 2 ^ 52)
    (he : e ≤ -52) (h : f.toModel.unpack = .finite .positive m e hm) :
    HasSign .positive (2 - f) := by
  have htwo : (2 : Float).toModel.unpack = .finite .positive (2 ^ 52) (-51) (by decide) := rfl
  have hsub :
      Signed .positive (UnpackedFloat.sub .binary64 (2 : Float).toModel.unpack
        f.toModel.unpack) := by
    obtain ⟨k, hk⟩ : ∃ k, (-51 - e).toNat = k + 1 := ⟨(-52 - e).toNat, by omega⟩
    have hlt : m < 2 ^ 52 * 2 ^ (k + 1) := by
      have := Nat.mul_le_mul_left (2 ^ 52) (Nat.le_self_pow (Nat.succ_ne_zero k) 2)
      omega
    have hdiff : Sign.positive.apply ((2 ^ 52 * 2 ^ (k + 1) : Nat) : Int) -
        Sign.positive.apply (m : Nat) =
        Sign.positive.apply ((2 ^ 52 * 2 ^ (k + 1) - m : Nat) : Int) := by
      simp only [Sign.apply]
      omega
    rw [htwo, h, UnpackedFloat.sub]
    simp only [decreaseExponent, Nat.shiftLeft_eq, min_eq_right (show e ≤ -51 by omega), hk,
      Int.sub_self, Int.toNat_zero, Nat.pow_zero, Nat.mul_one]
    rw [hdiff]
    exact .normalize (by omega) _ _
  exact hsub.unpack_pack

end Rendition.Number
