import Mathlib.Data.List.Basic

namespace Rendition.Number

open Float.Model Float.Model.UnpackedFloat

/-- The float as it compares with others: zeros lose their sign. -/
def compared : UnpackedFloat → UnpackedFloat
  | .zero _ => .zero .positive
  | a => a

theorem finite_beq_iff {s t : Sign} {m n : Nat} {e d : Int} {hm : 0 < m} {hn : 0 < n} :
    UnpackedFloat.beq (.finite s m e hm) (.finite t n d hn) ↔ s = t ∧ m = n ∧ e = d := by
  have hmagnitude : (compare e d).then (compare m n) = .eq ↔ m = n ∧ e = d := by
    rw [Ordering.then_eq_eq, Int.compare_eq_eq, Nat.compare_eq_eq, and_comm]
  cases s <;> cases t
  · change (some ((compare e d).then (compare m n)).swap == some .eq) = true ↔ _
    rw [beq_iff_eq, Option.some.injEq, Ordering.swap_eq_eq, hmagnitude]
    exact (and_iff_right rfl).symm
  · exact iff_of_false Bool.false_ne_true fun h ↦ Sign.noConfusion h.1
  · exact iff_of_false Bool.false_ne_true fun h ↦ Sign.noConfusion h.1
  · change (some ((compare e d).then (compare m n)) == some .eq) = true ↔ _
    rw [beq_iff_eq, Option.some.injEq, hmagnitude]
    exact (and_iff_right rfl).symm

theorem unpacked_apart {a b : UnpackedFloat} (hb : a.beq b = false) (h : compared a ≠ compared b) :
    a.beq b ↔ compared a ≠ .notANumber ∧ compared a = compared b :=
  iff_of_false (Bool.eq_false_iff.mp hb) fun hc ↦ h hc.2

theorem unpacked_beq_iff {a b : UnpackedFloat} :
    a.beq b ↔ compared a ≠ .notANumber ∧ compared a = compared b := by
  cases a with
  | notANumber => exact iff_of_false Bool.false_ne_true fun h ↦ h.1 rfl
  | infinity s =>
    cases b with
    | infinity t =>
      cases s <;> cases t
      · exact iff_of_true rfl ⟨UnpackedFloat.noConfusion, rfl⟩
      · exact unpacked_apart rfl fun h ↦ Sign.noConfusion (infinity.inj h)
      · exact unpacked_apart rfl fun h ↦ Sign.noConfusion (infinity.inj h)
      · exact iff_of_true rfl ⟨UnpackedFloat.noConfusion, rfl⟩
    | notANumber | zero | finite => cases s <;> exact unpacked_apart rfl UnpackedFloat.noConfusion
  | zero s =>
    cases b with
    | zero => exact iff_of_true rfl ⟨UnpackedFloat.noConfusion, rfl⟩
    | infinity t | finite t => cases t <;> exact unpacked_apart rfl UnpackedFloat.noConfusion
    | notANumber => exact unpacked_apart rfl UnpackedFloat.noConfusion
  | finite s m e hm =>
    cases b with
    | finite t n d hn =>
      rw [finite_beq_iff]
      constructor
      · rintro ⟨rfl, rfl, rfl⟩
        exact ⟨UnpackedFloat.noConfusion, rfl⟩
      · rintro ⟨-, ⟨⟩⟩
        exact ⟨rfl, rfl, rfl⟩
    | infinity t => cases t <;> exact unpacked_apart rfl UnpackedFloat.noConfusion
    | zero => cases s <;> exact unpacked_apart rfl UnpackedFloat.noConfusion
    | notANumber => exact unpacked_apart rfl UnpackedFloat.noConfusion

theorem beq_iff {x y : Float} : x == y ↔
    compared x.toModel.unpack ≠ .notANumber ∧
    compared x.toModel.unpack = compared y.toModel.unpack :=
  unpacked_beq_iff

instance partialEquivBEq : PartialEquivBEq Float where
  symm h := by
    obtain ⟨hx, he⟩ := beq_iff.mp h
    exact beq_iff.mpr ⟨he ▸ hx, he.symm⟩
  trans h h' := by
    obtain ⟨hx, he⟩ := beq_iff.mp h
    exact beq_iff.mpr ⟨hx, he.trans (beq_iff.mp h').2⟩

theorem beq_self {x : Float} (h : x.isNaN = false) : x == x := by
  refine beq_iff.mpr ⟨?_, rfl⟩
  change x.toModel.unpack.isNaN = false at h
  cases hx : x.toModel.unpack with
  | notANumber =>
    rw [hx] at h
    cases h
  | infinity | zero | finite => exact UnpackedFloat.noConfusion

end Rendition.Number
