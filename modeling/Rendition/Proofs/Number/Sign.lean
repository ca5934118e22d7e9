import Rendition.Proofs.Number.Units

namespace Rendition.Number

open Float.Model Float.Model.UnpackedFloat

theorem toNat_implicit (m : BitVec 52) : (1#1 ++ m).toNat = 2 ^ 52 + m.toNat := by
  rw [BitVec.toNat_append, ← Nat.shiftLeft_add_eq_or_of_lt m.isLt]
  rfl

theorem unpack_pack_normal (s : Sign) {m : Nat} {e : Int} (hm : 0 < m) (hge : 2 ^ 52 ≤ m)
    (hlt : m < 2 ^ 53) (hle : -1074 ≤ e) (hle' : e ≤ 971) :
    UnpackedFloat.unpack .binary64 (UnpackedFloat.pack .binary64 (.finite s m e hm)) =
      .finite s m e hm := by
  have hlog : m.log2 = 52 := (Nat.log2_eq_iff hm.ne').mpr ⟨hge, hlt⟩
  obtain ⟨b, hb⟩ : ∃ b : Nat, e = b - 1075 := ⟨(e + 1075).toNat, by omega⟩
  have hbits : (BitVec.ofNat 11 b).toNat = b := by rw [BitVec.toNat_ofNat]; omega
  have hpack : UnpackedFloat.pack .binary64 (.finite s m e hm) =
      packComponents .binary64 s (BitVec.ofNat 11 b) (BitVec.ofNat 52 m) := by
    have hbiased : (e + 1023 + 52).toNat = b := by omega
    change (if 2 ^ 11 ≤ (e + 1023 + 52).toNat + 1 then _ else if m.log2 + 1 = 53 then
      packComponents .binary64 s (BitVec.ofNat 11 (e + 1023 + 52).toNat) (BitVec.ofNat 52 m)
        else _) = _
    rw [hbiased, if_neg (by omega), if_pos (by omega)]
  have hinf : BitVec.ofNat 11 b ≠ -1#_ := by rw [BitVec.toNat_ne, hbits]; change b ≠ 2047; omega
  have hzero : BitVec.ofNat 11 b ≠ 0#_ := by rw [BitVec.toNat_ne, hbits]; change b ≠ 0; omega
  have hmant : (1#1 ++ BitVec.ofNat 52 m).toNat = m := by
    rw [toNat_implicit, BitVec.toNat_ofNat]; omega
  rw [hpack]
  unfold UnpackedFloat.unpack
  simp only [unpackMantissa_packComponents, unpackExponent_packComponents,
    unpackSign_packComponents, Sign.ofBitVec_toBitVec]
  rw [if_neg hinf, if_neg hzero]
  simp only [hmant, hbits, hb]
  rfl

theorem unpack_pack_overflow (s : Sign) {m : Nat} {e : Int} (hm : 0 < m) (h : 971 < e) :
    UnpackedFloat.unpack .binary64 (UnpackedFloat.pack .binary64 (.finite s m e hm)) =
      .infinity s := by
  have hpack : UnpackedFloat.pack .binary64 (.finite s m e hm) = packedInfinity .binary64 s := by
    change (if 2 ^ 11 ≤ (e + 1023 + 52).toNat + 1 then packedInfinity .binary64 s else _) = _
    exact if_pos (by omega)
  rw [hpack]
  cases s <;> rfl

def Signed (s : Sign) : UnpackedFloat → Prop
  | .notANumber => True
  | .infinity t | .zero t | .finite t .. => t = s

namespace Signed

variable {s t : Sign} {a b : UnpackedFloat}

theorem exists_signed (a : UnpackedFloat) : ∃ s, Signed s a := by
  cases a with
  | notANumber => exact ⟨.positive, trivial⟩
  | infinity t | zero t | finite t => exact ⟨t, rfl⟩

theorem roundWithAccuracy (spec : Format) (s : Sign) (m : Nat) (e : Int) (acc : Accuracy) :
    Signed s (roundWithAccuracy spec s m e acc) := by
  unfold UnpackedFloat.roundWithAccuracy
  simp only
  split <;> rfl

theorem unpack_packComponents (s : Sign) (e : BitVec 11) (m : BitVec 52) :
    Signed s (unpack .binary64 (packComponents .binary64 s e m)) := by
  unfold UnpackedFloat.unpack
  simp only [unpackSign_packComponents, Sign.ofBitVec_toBitVec]
  split
  · split <;> trivial
  · split
    · split <;> rfl
    · rfl

theorem unpack_pack (h : Signed s a) : Signed s (unpack .binary64 (pack .binary64 a)) := by
  cases a with
  | notANumber =>
    have hnan : unpack .binary64 (pack .binary64 .notANumber) = .notANumber := rfl
    rw [hnan]
    trivial
  | infinity t =>
    obtain rfl : t = s := h
    exact unpack_packComponents _ _ _
  | zero t =>
    obtain rfl : t = s := h
    exact unpack_packComponents _ _ _
  | finite t m e hm =>
    obtain rfl : t = s := h
    unfold UnpackedFloat.pack
    simp only
    split
    · exact unpack_packComponents _ _ _
    · split <;> exact unpack_packComponents _ _ _

theorem mul (ha : Signed s a) (hb : Signed t b) :
    Signed (s * t) (UnpackedFloat.mul .binary64 a b) := by
  cases a <;> cases b <;> first
    | trivial
    | (cases ha; cases hb; rfl)
    | (cases ha; cases hb; exact roundWithAccuracy _ _ _ _ _)

theorem div (ha : Signed s a) (hb : Signed t b) :
    Signed (s / t) (UnpackedFloat.div .binary64 a b) := by
  cases a <;> cases b <;> first
    | trivial
    | (cases ha; cases hb; rfl)
    | (cases ha; cases hb; exact roundWithAccuracy _ _ _ _ _)

theorem normalize {n : Nat} (hn : 0 < n) (e : Int) (t : Sign) :
    Signed s (normalize .binary64 (s.apply n) e t) := by
  unfold UnpackedFloat.normalize
  cases s with
  | positive =>
    have hcmp : compare (Sign.positive.apply (n : Int)) 0 = .gt :=
      Int.compare_eq_gt.mpr (Int.natCast_pos.mpr hn)
    rw [hcmp]
    exact roundWithAccuracy _ _ _ _ _
  | negative =>
    have hcmp : compare (Sign.negative.apply (n : Int)) 0 = .lt :=
      Int.compare_eq_lt.mpr (Int.neg_neg_of_pos (Int.natCast_pos.mpr hn))
    rw [hcmp]
    exact roundWithAccuracy _ _ _ _ _

theorem add (ha : Signed s a) (hb : Signed s b) : Signed s (UnpackedFloat.add .binary64 a b) := by
  cases a with
  | notANumber => cases b <;> trivial
  | infinity t =>
    obtain rfl : t = s := ha
    cases b with
    | notANumber => trivial
    | infinity u =>
      obtain rfl : u = t := hb
      cases u <;> rfl
    | zero u | finite u => rfl
  | zero t =>
    obtain rfl : t = s := ha
    cases b with
    | notANumber => trivial
    | zero u =>
      obtain rfl : u = t := hb
      cases u <;> rfl
    | infinity u | finite u => exact hb
  | finite t m e hm =>
    obtain rfl : t = s := ha
    cases b with
    | notANumber => trivial
    | infinity u => exact hb
    | zero u => rfl
    | finite u m' e' hm' =>
      obtain rfl : u = t := hb
      rw [UnpackedFloat.add]
      simp only [decreaseExponent, Nat.shiftLeft_eq]
      have hsum : ∀ n n' : Nat, u.apply n + u.apply n' = u.apply (n + n' : Nat) := by
        intro n n'
        cases u <;> simp only [Sign.apply] <;> omega
      rw [hsum]
      exact normalize (Nat.add_pos_left (Nat.mul_pos hm (Nat.two_pow_pos _)) _) _ _

end Signed

def HasSign (s : Sign) (f : Float) : Prop := Signed s f.toModel.unpack

theorem exists_hasSign (f : Float) : ∃ s, HasSign s f := Signed.exists_signed _

namespace HasSign

variable {s t : Sign} {f g : Float}

theorem mul (hf : HasSign s f) (hg : HasSign t g) : HasSign (s * t) (f * g) :=
  (Signed.mul hf hg).unpack_pack

theorem div (hf : HasSign s f) (hg : HasSign t g) : HasSign (s / t) (f / g) :=
  (Signed.div hf hg).unpack_pack

theorem add (hf : HasSign s f) (hg : HasSign s g) : HasSign s (f + g) :=
  (Signed.add hf hg).unpack_pack

theorem units_nonneg {n : Int} (hs : HasSign s f) (h : units? f = some n) : 0 ≤ s.apply n := by
  obtain ⟨x, hx, rfl⟩ := Option.map_eq_some_iff.mp h
  have hsign : x.sign = s := by
    obtain ⟨hz, -⟩ | ⟨hpos, hu⟩ := unpack_of_ofFloat? hx
    · exact (show Signed s (.zero x.sign) from hz ▸ hs)
    · exact (show Signed s (.finite x.sign x.significand x.exponent hpos) from hu ▸ hs)
  rw [Exact.units_eq_apply, hsign]
  cases s <;> simp only [Sign.apply] <;> omega

end HasSign

def Void : UnpackedFloat → Prop
  | .notANumber | .zero _ => True
  | .infinity _ | .finite .. => False

namespace Void

variable {a : UnpackedFloat}

theorem mul (h : Void a) (b : UnpackedFloat) : Void (UnpackedFloat.mul .binary64 a b) := by
  cases a <;> cases b <;> trivial

theorem div (h : Void a) (b : UnpackedFloat) : Void (UnpackedFloat.div .binary64 a b) := by
  cases a <;> cases b <;> trivial

theorem unpack_pack (h : Void a) : Void (unpack .binary64 (pack .binary64 a)) := by
  cases a with
  | notANumber => exact trivial
  | zero s => cases s <;> exact trivial
  | infinity s | finite s => exact h.elim

end Void

theorem units_eq_zero_of_mul_div {f g h : Float} {n : Int} (hf : units? f = some 0)
    (hn : units? (f * g / h) = some n) :
    n = 0 := by
  obtain ⟨x, hx, hxz⟩ := Option.map_eq_some_iff.mp hf
  obtain ⟨y, hy, rfl⟩ := Option.map_eq_some_iff.mp hn
  have hvoid : Void f.toModel.unpack := by
    obtain ⟨hfz, -⟩ | ⟨hpos, -⟩ := unpack_of_ofFloat? hx
    · rw [hfz]
      trivial
    · exact absurd (Exact.units_eq_zero.mp hxz) hpos.ne'
  have hquotient : Void (f * g / h).toModel.unpack := ((hvoid.mul _).unpack_pack.div _).unpack_pack
  obtain ⟨-, hyz⟩ | ⟨hpos, hyu⟩ := unpack_of_ofFloat? hy
  · exact Exact.units_eq_zero.mpr hyz
  · rw [hyu] at hquotient
    exact hquotient.elim

end Rendition.Number
