import Rendition.Proofs.Script.Standard

namespace Rendition.Script

variable {α β : Type} {P : α → Prop} {Q : β → Prop}

/-- A script that only reads settings on its way to an answer that `P` holds of, or to its own
fault. -/
inductive Observing (P : α → Prop) : Script α → Prop
  | done {a : α} (h : P a) : Observing P (.done a)
  | fail {fault : Fault} (h : fault.isFatal = false) : Observing P (.fail fault)
  | settings {next : Settings → Script α} (h : ∀ s, Observing P (next s)) :
      Observing P (.settings next)

/-- A script whose only effect, if it has one, is its last request, so that it has none once it
fails: it sets the settings, or plays a phrase and hands over what that gives. -/
inductive Cautious : Script (Option Passage) → Prop
  | done : Cautious (.done none)
  | fail {fault : Fault} (h : fault.isFatal = false) : Cautious (.fail fault)
  | settings {next : Settings → Script (Option Passage)} (h : ∀ s, Cautious (next s)) :
      Cautious (.settings next)
  | set (s : Settings) : Cautious (.setSettings s (.done none))
  | play {phrase : Phrase} {overrides : Overrides}
      {next : Except Fault Passage → Script (Option Passage)}
      (h : ∀ r, next r = ofExcept (r.map some)) : Cautious (.play phrase overrides .full next)

theorem Direct.observing {script : Script α} (h : script.Direct P) : script.Observing P := by
  cases h with
  | done ha => exact .done ha
  | fail hf => exact .fail hf

namespace Observing

variable {script : Script α}

theorem bind {next : α → Script β} (h : script.Observing P) (hn : ∀ a, P a → (next a).Observing Q) :
    (script >>= next).Observing Q := by
  induction h with
  | done ha => exact hn _ ha
  | fail hf => exact .fail hf
  | settings _ ih => exact .settings ih

theorem cautious {next : α → Script (Option Passage)} (h : script.Observing P)
    (hn : ∀ a, P a → (next a).Cautious) :
    (script >>= next).Cautious := by
  induction h with
  | done ha => exact hn _ ha
  | fail hf => exact .fail hf
  | settings _ ih => exact .settings ih

theorem ofExcept {r : Except Fault α} (h : ∀ fault, r = .error fault → fault.isFatal = false) :
    (Script.ofExcept r).Observing fun _ ↦ True := by
  cases r with
  | ok => exact .done trivial
  | error fault => exact .fail (h fault rfl)

end Observing

theorem observing_shiftedKey (name : String) (shift : Int) :
    (shiftedKey name shift).Observing fun _ ↦ True := by
  refine .settings ?_
  intro s
  dsimp only
  split
  · exact (Observing.ofExcept fun _ ↦ checkList_error).bind fun _ _ ↦ .done trivial
  · exact .fail rfl

theorem cautious_passage (phrase : Phrase) (overrides : Overrides) :
    (some <$> passage phrase overrides .full).Cautious := .play ofExcept_bind_some

theorem cautious_adjust {change : Settings → Except Fault Settings} (h : Refuses change) :
    Cautious (do adjust change; return none) := by
  refine .settings ?_
  intro s
  dsimp only
  cases hs : change s with
  | ok s' => exact .set s'
  | error fault => exact .fail (h s fault hs)

section Bodies

variable (name : String) (values : List Value)

theorem cautious_scalar (setting : String) : (scalar setting name values).Cautious :=
  (direct_number name values 0).observing.cautious fun value _ ↦
    cautious_adjust (refuses_withScalar setting value)

theorem cautious_key : (key name values).Cautious :=
  (direct_numbers name values 0).observing.cautious fun _ _ ↦ cautious_adjust (refuses_withKey _)

theorem cautious_octave : (octave name values).Cautious := by
  refine (direct_whole name values 0).observing.cautious ?_
  intro octaves _
  split
  · exact (observing_shiftedKey name _).cautious fun _ _ ↦ cautious_adjust (refuses_withKey _)
  · exact .fail rfl

theorem cautious_volume : (volume name values).Cautious :=
  (direct_numbers name values 0).observing.cautious fun _ _ ↦ cautious_adjust (refuses_withVolume _)

theorem cautious_putStaccato (share : Float) (place : Nat) :
    (putStaccato name share place).Cautious := by
  refine .settings ?_
  intro s
  split
  · exact cautious_adjust (refuses_withStaccato _)
  · exact .fail rfl

theorem cautious_staccato : (staccato name values).Cautious := by
  rw [staccato_eq]
  split
  · exact cautious_adjust (refuses_withStaccato _)
  · exact (direct_number name values 0).observing.cautious fun share _ ↦
      (direct_staccatoPlace name values).observing.cautious fun place _ ↦
        cautious_putStaccato name share place

theorem cautious_tuplet : (tuplet name values).Cautious := by
  refine (direct_number name values 0).observing.cautious ?_
  intro count _
  dsimp only
  split
  · exact .fail rfl
  · exact (direct_phrase name values 1).observing.cautious fun phrase _ ↦ .settings fun _ ↦
      cautious_passage phrase _

theorem cautious_transpose : (transpose name values).Cautious :=
  (direct_whole name values 0).observing.cautious fun shift _ ↦
    (direct_phrase name values 1).observing.cautious fun phrase _ ↦
      (observing_shiftedKey name shift).cautious fun _ _ ↦ cautious_passage phrase _

end Bodies

theorem cautious_standard : ∀ f ∈ standard, ∀ called values, (f.2 called values).Cautious := by
  have hscalar (setting : String) : ∀ called values, (scalar setting called values).Cautious :=
    fun called values ↦ cautious_scalar called values setting
  simp only [standard, List.forall_mem_cons]
  exact ⟨hscalar _, hscalar _, hscalar _, hscalar _, hscalar _, hscalar _, hscalar _, hscalar _,
    hscalar _, hscalar _, cautious_key, cautious_octave, cautious_volume, cautious_staccato,
    cautious_tuplet, cautious_transpose, List.forall_mem_nil _⟩

end Rendition.Script
