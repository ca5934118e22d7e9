import Rendition.Proofs.Number.Power
import Rendition.Sound.Playing

namespace Rendition

open Number Float.Model Float.Model.UnpackedFloat

namespace Beat

theorem isPower_twoPower (n : Nat) :
    n < 1024 ∧ IsPower (twoPower n) (n - 52) ∨
      (twoPower n).toModel.unpack = .infinity .positive := by
  induction n with
  | zero => exact .inl ⟨by decide, rfl⟩
  | succ n ih =>
    obtain ⟨hlt, hpower⟩ | hinf := ih
    · obtain ⟨hle, hdouble⟩ | hinf := hpower.double (by omega)
      · have he : ((n + 1 : Nat) : Int) - 52 = n - 52 + 1 := by omega
        exact .inl ⟨by omega, he ▸ hdouble⟩
      · exact .inr hinf
    · right
      change UnpackedFloat.unpack .binary64 (UnpackedFloat.pack .binary64
        (UnpackedFloat.mul .binary64 (2 : Float).toModel.unpack (twoPower n).toModel.unpack)) = _
      rw [hinf]
      rfl

theorem hasSign_dotted (n : Nat) : HasSign .positive (dotted n) := by
  obtain ⟨hlt, hpower⟩ | hinf := isPower_twoPower n
  · obtain ⟨m, e, hm, hle, he, hquotient⟩ := hpower.reciprocal (by omega) (by omega)
    exact hasSign_two_sub hm hle he hquotient
  · have hquotient : (1 / twoPower n).toModel.unpack = .zero .positive := by
      change UnpackedFloat.unpack .binary64 (UnpackedFloat.pack .binary64
        (UnpackedFloat.div .binary64 (1 : Float).toModel.unpack (twoPower n).toModel.unpack)) = _
      rw [hinf]
      rfl
    change Signed .positive (UnpackedFloat.unpack .binary64 (UnpackedFloat.pack .binary64
      (UnpackedFloat.sub .binary64 (2 : Float).toModel.unpack (1 / twoPower n).toModel.unpack)))
    rw [hquotient]
    rfl

theorem hasSign_scan {beat : Float} (h : HasSign .positive beat) (cs : List Char) :
    HasSign .positive (scan beat cs) := by
  induction beat, cs using scan.induct with
  | case1 => rwa [scan]
  | case2 beat rest ih =>
    rw [scan, if_pos rfl]
    exact ih (h.mul (hasSign_dotted _))
  | case3 beat rest _ ih =>
    rw [scan, if_neg (by decide), if_pos rfl]
    exact ih (h.div (t := .positive) rfl)
  | case4 beat rest _ _ ih =>
    rw [scan, if_neg (by decide), if_neg (by decide), if_pos rfl]
    exact ih (h.add rfl)
  | case5 beat rest _ _ _ ih =>
    rw [scan, if_neg (by decide), if_neg (by decide), if_neg (by decide), if_pos rfl]
    exact ih (h.div (t := .positive) rfl)
  | case6 beat c rest h₁ h₂ h₃ h₄ ih =>
    rw [scan, if_neg h₁, if_neg h₂, if_neg h₃, if_neg h₄]
    exact ih h

end Beat

theorem Settings.exists_beat_sign (settings : Settings) :
    ∃ s, ∀ note : Note, HasSign s (note.timing settings).beat := by
  obtain ⟨s, hs⟩ := exists_hasSign (Beat.unitFactor settings.duration)
  refine ⟨s, ?_⟩
  intro note
  have hone : HasSign .positive 1 := rfl
  have hproduct := (Beat.hasSign_scan hone note.lengths.toList).mul hs
  have hs' : Sign.positive * s = s := by cases s <;> rfl
  exact hs' ▸ hproduct

theorem Note.nominal_eq_zero {settings : Settings} {note : Note} {n : Int}
    (hb : units? (note.timing settings).beat = some 0)
    (hn : units? (note.timing settings).nominal = some n) : n = 0 :=
  units_eq_zero_of_mul_div hb hn

end Rendition
