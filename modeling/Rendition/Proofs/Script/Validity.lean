import Rendition.Proofs.Number.Whole
import Rendition.Proofs.Script.Standard

namespace Rendition

theorem seq_eq_ok {α : Type} {first : Except Fault Unit} {next : Except Fault α} {a : α} :
    (do first; next) = .ok a ↔ first = .ok () ∧ next = .ok a := by
  cases first with
  | ok => exact (and_iff_right rfl).symm
  | error fault => exact ⟨nofun, nofun⟩

theorem forM_eq_ok {α : Type} {f : α → Except Fault Unit} {xs : List α} :
    xs.forM f = .ok () ↔ ∀ x ∈ xs, f x = .ok () := by
  induction xs with
  | nil => exact ⟨fun _ ↦ nofun, fun _ ↦ rfl⟩
  | cons x rest ih =>
    rw [List.forM, seq_eq_ok, List.forall_mem_cons, ih]

namespace Dial

variable {dial : Dial} {value : Float}

theorem check_eq_ok : dial.check value = .ok () ↔ dial.admits value := by
  unfold check
  split <;> simp [*]

theorem mem_all (dial : Dial) : dial ∈ all := by
  cases dial <;> decide

theorem read_turn (other : Dial) (s : Settings) (value : Float) (dial : Dial) :
    other.read (dial.turn s value) = if other = dial then value else other.read s := by
  cases dial <;> cases other <;> rfl

end Dial

namespace Settings

structure Valid (s : Settings) : Prop where
  key : checkKey s.key = .ok ()
  volume : checkShares "volume" s.volume = .ok ()
  staccato : checkShares "stac" s.staccato = .ok ()
  dials : ∀ dial : Dial, dial.admits (dial.read s)
  trace : s.trace ≠ 0

variable {s s' : Settings}

theorem check_eq_ok : s.check = .ok () ↔ s.Valid := by
  have hdials : (Dial.all.forM fun dial ↦ dial.check (dial.read s)) = .ok () ↔
      ∀ dial : Dial, dial.admits (dial.read s) := by
    rw [forM_eq_ok]
    exact ⟨fun h dial ↦ Dial.check_eq_ok.mp (h dial dial.mem_all),
      fun h dial _ ↦ Dial.check_eq_ok.mpr (h dial)⟩
  have htrace :
      (if s.trace = 0 then throw (.setting "trace" .traceTooShort) else pure () :
        Except Fault Unit) = .ok () ↔ s.trace ≠ 0 := by
    split
    next h => exact ⟨nofun, fun hne ↦ absurd h hne⟩
    next h => exact ⟨fun _ ↦ h, fun _ ↦ rfl⟩
  unfold check
  rw [seq_eq_ok, seq_eq_ok, seq_eq_ok, seq_eq_ok, hdials, htrace]
  exact ⟨fun ⟨hkey, hvolume, hstaccato, hdials, htrace⟩ ↦ ⟨hkey, hvolume, hstaccato,
    hdials, htrace⟩,
    fun h ↦ ⟨h.key, h.volume, h.staccato, h.dials, h.trace⟩⟩

theorem Valid.dials_eq (hs : s.Valid) (h : ∀ dial : Dial, dial.read s' = dial.read s)
    (dial : Dial) :
    dial.admits (dial.read s') := h dial ▸ hs.dials dial

theorem valid_default : ({} : Settings).Valid := check_eq_ok.mp (by decide +kernel)

def KeepsValid (change : Settings → Except Fault Settings) : Prop :=
  ∀ s s', s.Valid → change s = .ok s' → s'.Valid

theorem keepsValid_withKey (key : List Int32) : KeepsValid (·.withKey key) := by
  intro s s' hs h
  obtain ⟨hkey, he⟩ := seq_eq_ok.mp h
  obtain rfl := Except.ok.inj he
  exact ⟨hkey, hs.volume, hs.staccato, hs.dials_eq fun dial ↦ by cases dial <;> rfl, hs.trace⟩

theorem keepsValid_withVolume (volume : List Float) : KeepsValid (·.withVolume volume) := by
  intro s s' hs h
  obtain ⟨hvolume, he⟩ := seq_eq_ok.mp h
  obtain rfl := Except.ok.inj he
  exact ⟨hs.key, hvolume, hs.staccato, hs.dials_eq fun dial ↦ by cases dial <;> rfl, hs.trace⟩

theorem keepsValid_withStaccato (staccato : List Float) : KeepsValid (·.withStaccato staccato) := by
  intro s s' hs h
  obtain ⟨hstaccato, he⟩ := seq_eq_ok.mp h
  obtain rfl := Except.ok.inj he
  exact ⟨hs.key, hs.volume, hstaccato, hs.dials_eq fun dial ↦ by cases dial <;> rfl, hs.trace⟩

theorem Valid.turn (hs : s.Valid) {dial : Dial} {value : Float} (h : dial.admits value) :
    (dial.turn s value).Valid := by
  have hdials (other : Dial) : other.admits (other.read (dial.turn s value)) := by
    rw [other.read_turn]
    split
    next he => exact he ▸ h
    next => exact hs.dials other
  cases dial <;> exact ⟨hs.key, hs.volume, hs.staccato, hdials, hs.trace⟩

theorem keepsValid_withTrace (value : Float) : KeepsValid (·.withTrace value) := by
  intro s s' hs h
  dsimp only [withTrace] at h
  split at h
  · cases h
  next hadmitted =>
    obtain rfl := Except.ok.inj h
    obtain ⟨hone, hwhole⟩ : ¬value < 1 ∧ Number.isWhole value := by simpa using hadmitted
    have htruncate := Number.one_le_truncate hwhole hone
    have hclamp : (Number.clamp 0 traceLimit (Number.truncate value)).toNat ≠ 0 := by
      unfold Number.clamp traceLimit
      omega
    exact ⟨hs.key, hs.volume, hs.staccato, hs.dials_eq fun dial ↦ by cases dial <;> rfl, hclamp⟩

theorem keepsValid_withScalar (name : String) (value : Float) :
    KeepsValid (·.withScalar name value) := by
  intro s s' hs h
  dsimp only [withScalar] at h
  split at h
  · exact keepsValid_withTrace value s s' hs h
  · split at h
    next dial _ =>
      obtain ⟨hcheck, he⟩ := seq_eq_ok.mp h
      obtain rfl := Except.ok.inj he
      exact hs.turn (Dial.check_eq_ok.mp hcheck)
    next => cases h

end Settings

end Rendition
