import Rendition.Proofs.Script.Standard
import Rendition.Proofs.Sound.Transposition

namespace Rendition

variable {n : Int32}

theorem Dial.turn_raise (dial : Dial) (s : Settings) (value : Float) :
    dial.turn (s.raise n) value = (dial.turn s value).raise n := by
  cases dial <;> rfl

namespace Script

/-- Two scripts that do the same in settings that lie `n` semitones apart: they change the settings
alike and leave the key as it is, and play the same phrase, which is among `phrases`. -/
inductive Raised (n : Int32) (phrases : List Phrase) : Script (Option Passage) →
    Script (Option Passage) → Prop
  | done : Raised n phrases (.done none) (.done none)
  | fail {fault : Fault} (h : fault.isFatal = false) : Raised n phrases (.fail fault) (.fail fault)
  | play {phrase : Phrase} {overrides : Overrides}
      {next next' : Except Fault Passage → Script (Option Passage)} (hp : phrase ∈ phrases)
      (hk : overrides.key = none) (h : ∀ r, next r = ofExcept (r.map some))
      (h' : ∀ r, next' r = ofExcept (r.map some)) :
      Raised n phrases (.play phrase overrides .full next) (.play phrase overrides .full next')
  | settings {next next' : Settings → Script (Option Passage)}
      (h : ∀ s, s.key ≠ [] → Raised n phrases (next s) (next' (s.raise n))) :
      Raised n phrases (.settings next) (.settings next')
  | setSettings {s : Settings} {next next' : Script (Option Passage)} (hk : s.key ≠ [])
      (h : Raised n phrases next next') : Raised n phrases (.setSettings s next)
      (.setSettings (s.raise n) next')

structure SparesKey (change : Settings → Except Fault Settings) : Prop where
  refuses : Refuses change
  raise : ∀ (n : Int32) s, change (s.raise n) = (change s).map (Settings.raise n)
  key : ∀ s s', change s = .ok s' → s'.key = s.key

namespace SparesKey

theorem checked {check : Except Fault Unit} {change : Settings → Settings}
    (h : ∀ fault, check = .error fault → fault.isFatal = false)
    (hraise : ∀ (n : Int32) s, change (s.raise n) = (change s).raise n)
    (hkey : ∀ s, (change s).key = s.key) :
    SparesKey fun s ↦ do
      check
      return change s where
  refuses := refuses_checked change h
  raise n s := by
    cases check with
    | ok => exact congrArg Except.ok (hraise n s)
    | error fault => rfl
  key s s' hs := by
    cases check with
    | ok =>
      cases hs
      exact hkey s
    | error fault => cases hs

theorem withVolume (volume : List Float) : SparesKey (·.withVolume volume) :=
  checked (fun _ ↦ checkList_error) (fun _ _ ↦ rfl) fun _ ↦ rfl

theorem withStaccato (staccato : List Float) : SparesKey (·.withStaccato staccato) :=
  checked (fun _ ↦ checkList_error) (fun _ _ ↦ rfl) fun _ ↦ rfl

theorem withScalar (name : String) (value : Float) : SparesKey (·.withScalar name value) where
  refuses := refuses_withScalar name value
  raise n s := by
    simp only [Settings.withScalar, Settings.withTrace]
    split
    · split <;> rfl
    · split
      next dial _ =>
        cases dial.check value with
        | ok => exact congrArg Except.ok (dial.turn_raise s value)
        | error fault => rfl
      next => rfl
  key s s' h := by
    simp only [Settings.withScalar, Settings.withTrace] at h
    split at h
    · split at h <;> cases h
      rfl
    · split at h
      next dial _ =>
        cases hc : dial.check value with
        | ok =>
          rw [hc] at h
          cases h
          exact dial.turn_key s value
        | error fault =>
          rw [hc] at h
          cases h
      next => cases h

end SparesKey

section Bodies

variable {phrases : List Phrase} (name : String) (values : List Value)

theorem Direct.raised {α : Type} {P : α → Prop} {script : Script α}
    {next next' : α → Script (Option Passage)} (h : script.Direct P)
    (hn : ∀ a, P a → Raised n phrases (next a) (next' a)) :
    Raised n phrases (script >>= next) (script >>= next') := by
  cases h with
  | done ha => exact hn _ ha
  | fail hf => exact .fail hf

theorem raised_adjust {change : Settings → Except Fault Settings} (h : SparesKey change) :
    Raised n phrases (do adjust change; return none) (do adjust change; return none) := by
  refine .settings ?_
  intro s hk
  dsimp only
  rw [h.raise]
  cases hs : change s with
  | ok s' =>
    refine .setSettings ?_ .done
    rw [h.key s s' hs]
    exact hk
  | error fault => exact .fail (h.refuses s fault hs)

theorem raised_passage {phrase : Phrase} (h : phrase ∈ phrases) {overrides : Overrides}
    (hk : overrides.key = none) :
    Raised n phrases (some <$> passage phrase overrides .full)
      (some <$> passage phrase overrides .full) :=
  .play h hk ofExcept_bind_some ofExcept_bind_some

theorem raised_scalar (setting : String) :
    Raised n (phrasesOf values) (scalar setting name values) (scalar setting name values) :=
  (direct_number name values 0).raised fun value _ ↦ raised_adjust (.withScalar setting value)

theorem raised_volume : Raised n (phrasesOf values) (volume name values) (volume name values) :=
  (direct_numbers name values 0).raised fun list _ ↦ raised_adjust (.withVolume list)

theorem raised_staccato :
    Raised n (phrasesOf values) (staccato name values) (staccato name values) := by
  rw [staccato_eq]
  split
  · exact raised_adjust (.withStaccato _)
  · refine (direct_number name values 0).raised ?_
    intro share _
    refine (direct_staccatoPlace name values).raised ?_
    intro place _
    refine .settings ?_
    intro s _
    change Raised n _ _ (if place ≤ s.staccato.length then _ else _)
    split
    · exact raised_adjust (.withStaccato _)
    · exact .fail rfl

theorem raised_tuplet : Raised n (phrasesOf values) (tuplet name values) (tuplet name values) := by
  refine (direct_number name values 0).raised ?_
  intro count _
  dsimp only
  split
  · exact .fail rfl
  · exact (direct_phrase name values 1).raised fun _ hp ↦ .settings fun _ _ ↦
      raised_passage (mem_phrasesOf hp) rfl

end Bodies

def keyed : List String := ["Key", "Oct", "Transpose"]

theorem raised_standard : ∀ f ∈ standard, f.1 ∉ keyed → ∀ called values,
    Raised n (phrasesOf values) (f.2 called values) (f.2 called values) := by
  have hscalar (title setting : String) : title ∉ keyed → ∀ called values,
      Raised n (phrasesOf values) (scalar setting called values) (scalar setting called values) :=
    fun _ called values ↦ raised_scalar called values setting
  simp only [standard, List.forall_mem_cons]
  refine ⟨hscalar _ _, hscalar _ _, hscalar _ _, hscalar _ _, hscalar _ _, hscalar _ _, hscalar _ _,
    hscalar _ _, hscalar _ _, hscalar _ _, ?_, ?_, fun _ ↦ raised_volume, fun _ ↦ raised_staccato,
    fun _ ↦ raised_tuplet, ?_, List.forall_mem_nil _⟩
  all_goals exact fun h ↦ absurd (by decide) h

end Script

end Rendition
