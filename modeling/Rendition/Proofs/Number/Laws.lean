import Mathlib
import Rendition.Proofs.Number.Equality
import Rendition.Proofs.Number.Range

namespace Rendition.Number

open Float.Model Float.Model.UnpackedFloat

theorem pack_toModel (f : Float) : Float.ofModel (Float.Model.pack f.toModel.unpack) = f :=
  Float.toBits_inj.mp (UInt64.toBitVec_inj.mp (pack_unpack_of_valid f.toModel.valid))

theorem unpacked_add_comm (a b : UnpackedFloat) :
    UnpackedFloat.add .binary64 a b = UnpackedFloat.add .binary64 b a := by
  cases a with
  | notANumber => cases b <;> rfl
  | infinity s =>
    cases b with
    | infinity t => cases s <;> cases t <;> rfl
    | notANumber | zero | finite => rfl
  | zero s =>
    cases b with
    | zero t => cases s <;> cases t <;> rfl
    | notANumber | infinity | finite => rfl
  | finite s m e hm =>
    cases b with
    | finite t n d hn =>
      simp only [UnpackedFloat.add]
      rw [min_comm, Int.add_comm]
    | notANumber | infinity | zero => rfl

theorem add_comm (f g : Float) : f + g = g + f :=
  congrArg (fun a ↦ Float.ofModel (Float.Model.pack a))
    (unpacked_add_comm f.toModel.unpack g.toModel.unpack)

theorem targetExponent_of_canonical {x : Exact} (h : x.Canonical) (hpos : 0 < x.significand) :
    Format.binary64.targetExponent (totalExponent x.significand x.exponent) = x.exponent := by
  have hleast := h.least
  have hlog : x.significand.log2 ≤ 52 := log2_le h.lt
  have hnormal : x.significand.log2 = 52 ∨ x.exponent = -1074 :=
    h.normal.imp_left fun hge ↦ (Nat.log2_eq_iff hpos.ne').mpr ⟨hge, h.lt⟩
  simp only [Format.targetExponent, totalExponent, Format.mantissaBits, Format.minExponent]
  omega

theorem mul_one (f : Float) : f * 1 = f := by
  have hmul : UnpackedFloat.mul .binary64 f.toModel.unpack (1 : Float).toModel.unpack =
      f.toModel.unpack := by
    rw [unpack_one]
    cases hf : f.toModel.unpack with
    | notANumber => rfl
    | infinity s | zero s => cases s <;> rfl
    | finite s m e hm =>
      have hfinite : f.isFinite := by
        change f.toModel.unpack.isFinite
        rw [hf]
        rfl
      obtain ⟨x, hx⟩ := exists_exact hfinite
      obtain ⟨hzero, -⟩ | ⟨hpos, hunpack⟩ := unpack_of_ofFloat? hx
      · cases hf.symm.trans hzero
      · cases hf.symm.trans hunpack
        have htarget := targetExponent_of_canonical (Exact.canonical_of_ofFloat? hx) hpos
        have hsign : x.sign * Sign.positive = x.sign := by cases x.sign <;> rfl
        have hexponent : x.exponent = x.exponent + -52 + (52 : Nat) := by omega
        change roundWithAccuracy .binary64 (x.sign * .positive) (x.significand * 2 ^ 52)
          (x.exponent + -52) .exact = _
        rw [hsign, roundWithAccuracy_exact x.sign hpos (by rwa [← hexponent])]
        congr 1
        exact hexponent.symm
  calc f * 1 = Float.ofModel (Float.Model.pack
        (UnpackedFloat.mul .binary64 f.toModel.unpack (1 : Float).toModel.unpack)) := rfl
    _ = f := by rw [hmul, pack_toModel]

section Rounding

variable {m : Nat} {e : Int}

theorem le_roundedMantissa (em : ExtendedMantissa) : em.mantissa ≤ em.roundedMantissa := by
  obtain ⟨mantissa, roundBit, stickyBit⟩ := em
  cases roundBit <;> cases stickyBit
  · exact Nat.le_refl mantissa
  · exact Nat.le_refl mantissa
  · exact Nat.le_add_right mantissa (mantissa % 2)
  · exact Nat.le_succ mantissa

theorem excess_eq (h : -1074 ≤ e) : excess m e = m.log2 - 52 := by
  unfold excess
  omega

theorem cut_mantissa (hm : 0 < m) : 0 < m / 2 ^ (m.log2 - 52) ∧ m / 2 ^ (m.log2 - 52) < 2 ^ 53 := by
  have hself := Nat.log2_self_le hm.ne'
  have hlt : m < 2 ^ (m.log2 + 1) := Nat.lt_log2_self
  have hpow : 2 ^ (m.log2 - 52) ≤ 2 ^ m.log2 := Nat.pow_le_pow_right (by decide) (Nat.sub_le _ _)
  refine ⟨Nat.div_pos (hpow.trans hself) (Nat.two_pow_pos _), ?_⟩
  rw [Nat.div_lt_iff_lt_mul (Nat.two_pow_pos _), ← Nat.pow_add]
  exact hlt.trans_le (Nat.pow_le_pow_right (by decide) (by omega))

theorem exists_roundWithAccuracy (s : Sign) (hm : 0 < m) (he : -1074 ≤ e) :
    ∃ m' e', ∃ hm' : 0 < m', m' < 2 ^ 53 ∧
    -1074 ≤ e' ∧ roundWithAccuracy .binary64 s m e .exact = .finite s m' e' hm' := by
  have hrounded : 0 < ((ExtendedMantissa.mk m false false) >>> (m.log2 - 52)).roundedMantissa := by
    refine Nat.lt_of_lt_of_le ?_ (le_roundedMantissa _)
    rw [mantissa_shiftRight]
    exact (cut_mantissa hm).1
  unfold roundWithAccuracy
  rw [shiftToTargetExponent_eq, excess_eq he]
  dsimp only
  generalize ((ExtendedMantissa.mk m false false) >>> (m.log2 - 52)).roundedMantissa =
    r at hrounded ⊢
  rw [shiftToTargetExponent_eq, excess_eq (by omega)]
  simp only [mantissa_shiftRight]
  obtain ⟨hpos, hlt⟩ := cut_mantissa hrounded
  rw [dif_neg hpos.ne']
  exact ⟨_, _, hpos, hlt, by omega, rfl⟩

theorem exists_round (s : Sign) (hm : 0 < m) (he : -1074 ≤ e) :
    ∃ m' e', ∃ hm' : 0 < m', m' < 2 ^ 53 ∧
    -1074 ≤ e' ∧ UnpackedFloat.round .binary64 s m e = .finite s m' e' hm' := by
  have htarget : -1074 ≤ Format.binary64.targetExponent (totalExponent m e) := le_max_right _ _
  unfold UnpackedFloat.round decreaseExponent
  refine exists_roundWithAccuracy s ?_ (by omega)
  rw [Nat.shiftLeft_eq]
  exact Nat.mul_pos hm (Nat.two_pow_pos _)

theorem unpack_pack_ne_zero (s t : Sign) (hm : 0 < m) (hlt : m < 2 ^ 53) (he : -1074 ≤ e) :
    UnpackedFloat.unpack .binary64 (UnpackedFloat.pack .binary64 (.finite s m e hm)) ≠ .zero t := by
  obtain hbig | hle := lt_or_ge 971 e
  · rw [unpack_pack_overflow s hm hbig]
    exact UnpackedFloat.noConfusion
  obtain hnormal | hsub := Nat.lt_or_ge m (2 ^ 52)
  · -- A subnormal mantissa is kept as it is.
    have hlog : m.log2 ≤ 51 := log2_le hnormal
    have hmantissa : BitVec.ofNat 52 m ≠ 0#52 := by
      rw [BitVec.toNat_ne, BitVec.toNat_ofNat]
      change m % 2 ^ 52 ≠ 0
      omega
    change UnpackedFloat.unpack .binary64
      (if 2 ^ 11 ≤ (e + 1023 + 52).toNat + 1 then packedInfinity .binary64 s
      else if m.log2 + 1 = 53 then
        packComponents .binary64 s (BitVec.ofNat 11 (e + 1023 + 52).toNat) (BitVec.ofNat 52 m)
      else packComponents .binary64 s 0#_ (BitVec.ofNat 52 m)) ≠ _
    rw [if_neg (by omega), if_neg (by omega)]
    unfold UnpackedFloat.unpack
    simp only [unpackMantissa_packComponents, unpackExponent_packComponents,
      unpackSign_packComponents]
    rw [if_neg (by decide), if_pos trivial, dif_neg hmantissa]
    exact UnpackedFloat.noConfusion
  · rw [unpack_pack_normal s hm hsub hlt he hle]
    exact UnpackedFloat.noConfusion

end Rounding

section Steady

/-- Neither is the float negative zero, nor does it become zero once it is packed. -/
def Apart : UnpackedFloat → Prop
  | .notANumber | .infinity _ => True
  | .zero s => s = .positive
  | .finite _ m e _ => m < 2 ^ 53 ∧ -1074 ≤ e

theorem Apart.unpack_pack {a : UnpackedFloat} (h : Apart a) :
    UnpackedFloat.unpack .binary64 (UnpackedFloat.pack .binary64 a) ≠ .zero .negative := by
  cases a with
  | notANumber => exact UnpackedFloat.noConfusion
  | infinity s => cases s <;> exact UnpackedFloat.noConfusion
  | zero s =>
    obtain rfl : s = .positive := h
    exact fun he ↦ nomatch he
  | finite s m e hm => exact unpack_pack_ne_zero s .negative hm h.1 h.2

theorem apart_normalize {n : Int} {e : Int} (he : -1074 ≤ e) :
    Apart (UnpackedFloat.normalize .binary64 n e .positive) := by
  unfold UnpackedFloat.normalize
  split
  next h =>
    have hneg := Int.compare_eq_lt.mp h
    obtain ⟨m, e', hm, hlt, he', hround⟩ := exists_round .negative (m := (-n).toNat) (by omega) he
    rw [hround]
    exact ⟨hlt, he'⟩
  next => rfl
  next h =>
    have hpos := Int.compare_eq_gt.mp h
    obtain ⟨m, e', hm, hlt, he', hround⟩ := exists_round .positive (m := n.toNat) (by omega) he
    rw [hround]
    exact ⟨hlt, he'⟩

variable {f g : Float}

theorem apart_of_finite {s : Sign} {m : Nat} {e : Int} {hm : 0 < m}
    (h : f.toModel.unpack = .finite s m e hm) :
    m < 2 ^ 53 ∧ -1074 ≤ e := by
  have hfinite : f.isFinite := by
    change f.toModel.unpack.isFinite
    rw [h]
    rfl
  obtain ⟨x, hx⟩ := exists_exact hfinite
  obtain ⟨hzero, -⟩ | ⟨hpos, hunpack⟩ := unpack_of_ofFloat? hx
  · cases h.symm.trans hzero
  · cases h.symm.trans hunpack
    exact ⟨(Exact.canonical_of_ofFloat? hx).lt, (Exact.canonical_of_ofFloat? hx).least⟩

theorem apart_add (h : f.toModel.unpack ≠ .zero .negative) :
    Apart (UnpackedFloat.add .binary64 f.toModel.unpack g.toModel.unpack) := by
  cases hf : f.toModel.unpack with
  | notANumber => cases g.toModel.unpack <;> trivial
  | infinity s =>
    cases g.toModel.unpack with
    | infinity t => cases s <;> cases t <;> trivial
    | notANumber | zero | finite => trivial
  | zero s =>
    obtain rfl : s = .positive := by
      cases s with
      | positive => rfl
      | negative => exact absurd hf h
    cases hg : g.toModel.unpack with
    | notANumber | infinity => trivial
    | zero t => cases t <;> rfl
    | finite t n d hn => exact apart_of_finite hg
  | finite s m e hm =>
    cases hg : g.toModel.unpack with
    | notANumber | infinity => trivial
    | zero t => exact apart_of_finite hf
    | finite t n d hn =>
      exact apart_normalize (le_min (apart_of_finite hf).2 (apart_of_finite hg).2)

/-- Adding zero leaves the float as it is. -/
def IsSteady (f : Float) : Prop := f + 0 = f

theorem isSteady_iff : IsSteady f ↔ f.toModel.unpack ≠ .zero .negative := by
  have hadd : f + 0 = Float.ofModel (Float.Model.pack
      (UnpackedFloat.add .binary64 f.toModel.unpack (.zero .positive))) := rfl
  constructor
  · intro h hunpack
    rw [IsSteady, hadd, hunpack] at h
    rw [← h] at hunpack
    exact nomatch hunpack
  · intro h
    have hsame : UnpackedFloat.add .binary64 f.toModel.unpack (.zero .positive) =
        f.toModel.unpack := by
      cases hf : f.toModel.unpack with
      | notANumber | infinity | finite => rfl
      | zero s =>
        cases s with
        | positive => rfl
        | negative => exact absurd hf h
    rw [IsSteady, hadd, hsame, pack_toModel]

theorem isSteady_zero : IsSteady 0 := isSteady_iff.mpr fun h ↦ nomatch h

theorem beq_zero_iff : f == 0 ↔ ∃ s, f.toModel.unpack = .zero s := by
  have hzero : compared (0 : Float).toModel.unpack = .zero .positive := rfl
  rw [beq_iff, hzero]
  cases f.toModel.unpack with
  | zero s => exact iff_of_true ⟨UnpackedFloat.noConfusion, rfl⟩ ⟨s, rfl⟩
  | notANumber | infinity | finite =>
    exact iff_of_false (fun h ↦ nomatch h.2) fun ⟨_, h⟩ ↦ nomatch h

theorem add_of_beq_zero (hf : f == 0) (hg : (g == 0) = false) : f + g = g := by
  obtain ⟨s, hf⟩ := beq_zero_iff.mp hf
  have hadd : f + g = Float.ofModel (Float.Model.pack
      (UnpackedFloat.add .binary64 f.toModel.unpack g.toModel.unpack)) := rfl
  have hsame : UnpackedFloat.add .binary64 (.zero s) g.toModel.unpack = g.toModel.unpack := by
    cases hunpack : g.toModel.unpack with
    | notANumber | infinity | finite => rfl
    | zero t => exact absurd (beq_zero_iff.mpr ⟨t, hunpack⟩) (ne_true_of_eq_false hg)
  rw [hadd, hf, hsame, pack_toModel]

theorem IsSteady.add (h : IsSteady f) (g : Float) : IsSteady (f + g) :=
  isSteady_iff.mpr (apart_add (isSteady_iff.mp h)).unpack_pack

end Steady

theorem sub_self {f : Float} (h : f.isFinite) : f - f = 0 := by
  have hsub : UnpackedFloat.sub .binary64 f.toModel.unpack f.toModel.unpack = .zero .positive := by
    change f.toModel.unpack.isFinite at h
    cases hf : f.toModel.unpack with
    | notANumber | infinity => rw [hf] at h; cases h
    | zero s => cases s <;> rfl
    | finite s m e hm =>
      simp only [UnpackedFloat.sub, Int.sub_self]
      rfl
  calc f - f = Float.ofModel (Float.Model.pack
    (UnpackedFloat.sub .binary64 f.toModel.unpack f.toModel.unpack)) := rfl
    _ = 0 := by rw [hsub]; rfl

end Rendition.Number
