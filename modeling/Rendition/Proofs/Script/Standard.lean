import Rendition.Proofs.Play.Outcome
import Rendition.Repertoire.Basic

namespace Rendition

theorem Table.mem_of_find?_ofList {κ α : Type} [DecidableEq κ] {entries : List (κ × α)}
    {k : κ} {v : α} (h : (ofList entries).find? k = some v) : (k, v) ∈ entries := by
  have hfold : ∀ (entries : List (κ × α)) (t : Table κ α),
      (entries.foldl (fun t e ↦ t.insert e.1 e.2) t).find? k = some v → t.find? k = some v ∨
      (k, v) ∈ entries := by
    intro entries
    induction entries with
    | nil => exact fun t ht ↦ .inl ht
    | cons e rest ih =>
      intro t ht
      obtain ht | ht := ih _ ht
      · rw [find?_insert] at ht
        split at ht
        next hk =>
          obtain rfl := Option.some.inj ht
          exact .inr (hk ▸ List.mem_cons_self)
        next => exact .inl ht
      · exact .inr (List.mem_cons_of_mem e ht)
  refine (hfold entries ∅ h).resolve_left ?_
  intro hempty
  cases hempty

namespace Script

variable {α β : Type}

/-- A script that plays nothing: it reads and sets settings, and answers what `P` holds
of unless it fails. -/
inductive Silent (P : α → Prop) : Script α → Prop
  | done {a : α} (h : P a) : Silent P (.done a)
  | fail {fault : Fault} (h : fault.isFatal = false) : Silent P (.fail fault)
  | settings {next : Settings → Script α} (h : ∀ s, Silent P (next s)) : Silent P (.settings next)
  | setSettings {s : Settings} {next : Script α} (h : Silent P next) :
      Silent P (.setSettings s next)

/-- A script that only answers what `P` holds of, or fails. -/
inductive Direct (P : α → Prop) : Script α → Prop
  | done {a : α} (h : P a) : Direct P (.done a)
  | fail {fault : Fault} (h : fault.isFatal = false) : Direct P (.fail fault)

/-- A script that plays at most one phrase, which is among `phrases`, and hands over what it
gives. -/
inductive Modest (phrases : List Phrase) : Script (Option Passage) → Prop
  | done : Modest phrases (.done none)
  | fail {fault : Fault} (h : fault.isFatal = false) : Modest phrases (.fail fault)
  | play {phrase : Phrase} {overrides : Overrides}
      {next : Except Fault Passage → Script (Option Passage)} (hp : phrase ∈ phrases)
      (h : ∀ r, next r = ofExcept (r.map some)) :
      Modest phrases (.play phrase overrides .full next)
  | settings {next : Settings → Script (Option Passage)} (h : ∀ s, Modest phrases (next s)) :
      Modest phrases (.settings next)
  | setSettings {s : Settings} {next : Script (Option Passage)} (h : Modest phrases next) :
      Modest phrases (.setSettings s next)

namespace Silent

variable {P : α → Prop} {Q : β → Prop} {script : Script α} {next : α → Script β}

theorem bind (h : script.Silent P) (hn : ∀ a, P a → (next a).Silent Q) :
    (script >>= next).Silent Q := by
  induction h with
  | done ha => exact hn _ ha
  | fail hf => exact .fail hf
  | settings _ ih => exact .settings ih
  | setSettings _ ih => exact .setSettings ih

theorem modest {phrases : List Phrase} {next : α → Script (Option Passage)} (h : script.Silent P)
    (hn : ∀ a, P a → (next a).Modest phrases) : (script >>= next).Modest phrases := by
  induction h with
  | done ha => exact hn _ ha
  | fail hf => exact .fail hf
  | settings _ ih => exact .settings ih
  | setSettings _ ih => exact .setSettings ih

theorem ofExcept {r : Except Fault α} (hok : ∀ a, r = .ok a → P a)
    (herror : ∀ fault, r = .error fault → fault.isFatal = false) :
    (Script.ofExcept r).Silent P := by
  cases r with
  | ok a => exact .done (hok a rfl)
  | error fault => exact .fail (herror fault rfl)

end Silent

namespace Direct

variable {P : α → Prop} {Q : β → Prop} {script : Script α} {next : α → Script β}

theorem bind (h : script.Direct P) (hn : ∀ a, P a → (next a).Direct Q) :
    (script >>= next).Direct Q := by
  cases h with
  | done ha => exact hn _ ha
  | fail hf => exact .fail hf

theorem silent (h : script.Direct P) : script.Silent P := by
  cases h with
  | done ha => exact .done ha
  | fail hf => exact .fail hf

end Direct

theorem ofExcept_bind_some (r : Except Fault Passage) :
    (ofExcept r).bind (fun p ↦ .done (some p)) = ofExcept (r.map some) := by
  cases r <;> rfl

theorem modest_passage {phrases : List Phrase} {phrase : Phrase} (h : phrase ∈ phrases)
    (overrides : Overrides) :
    (some <$> passage phrase overrides .full).Modest phrases :=
  .play h ofExcept_bind_some

def phrasesOf (values : List Value) : List Phrase := values.filterMap Value.phrase?

section Arguments

variable (name : String) (values : List Value) (position : Nat)

theorem direct_refuse (P : α → Prop) (fault : ArgumentFault) :
    (refuse name fault).Direct P := .fail rfl

theorem direct_argument : (argument name values position).Direct (values[position]? = some ·) := by
  unfold argument
  split
  next value h => exact .done h
  next => exact direct_refuse _ _ _

def NumberAt (number : Float) : Prop := values[position]? = some (.number number) ∧ number.isFinite

theorem direct_number : (number name values position).Direct (NumberAt values position) := by
  refine (direct_argument name values position).bind ?_
  intro value hv
  split
  next x h =>
    split
    next hfinite =>
      cases value with
      | number y =>
        obtain rfl : y = x := Option.some.inj h
        exact .done ⟨hv, hfinite⟩
      | text | numbers | phrase => cases h
    next => exact direct_refuse _ _ _
  next => exact direct_refuse _ _ _

theorem direct_whole : (whole name values position).Direct fun n ↦
    ∃ x, NumberAt values position x ∧ n = Number.truncate x := by
  refine (direct_number name values position).bind ?_
  intro value hv
  split
  · exact .done ⟨value, hv, rfl⟩
  · exact direct_refuse _ _ _

theorem direct_numbers : (numbers name values position).Direct fun _ ↦ True := by
  refine (direct_argument name values position).bind ?_
  intro value _
  split
  · split
    · exact .done trivial
    · exact direct_refuse _ _ _
  · exact direct_refuse _ _ _

theorem direct_phrase : (phrase name values position).Direct fun p ↦ values[position]? =
    some (.phrase p) := by
  refine (direct_argument name values position).bind ?_
  intro value hv
  split
  next p h =>
    cases value with
    | phrase q =>
      obtain rfl : q = p := Option.some.inj h
      exact .done hv
    | number | text | numbers => cases h
  next => exact direct_refuse _ _ _

variable {values position} in
theorem mem_phrasesOf {p : Phrase} (h : values[position]? = some (.phrase p)) :
    p ∈ phrasesOf values :=
  List.mem_filterMap.mpr ⟨_, List.mem_of_getElem? h, rfl⟩

end Arguments

theorem checkList_error {name : String} {admits : α → Bool} {outOfRange : α → SettingFault}
    {values : List α} {fault : Fault}
    (h : Settings.checkList name admits outOfRange values = .error fault) :
    fault.isFatal = false := by
  unfold Settings.checkList at h
  split at h
  · cases h; rfl
  · split at h <;> cases h
    rfl

def Refuses (change : Settings → Except Fault Settings) : Prop :=
  ∀ s fault, change s = .error fault → fault.isFatal = false

theorem silent_adjust {change : Settings → Except Fault Settings} (h : Refuses change) :
    (adjust change).Silent fun _ ↦ True :=
  .settings fun s ↦ (Silent.ofExcept (P := fun _ ↦ True) (fun _ _ ↦ trivial) (h s)).bind fun _ _ ↦
    .setSettings (.done trivial)

theorem refuses_checked {check : Except Fault Unit} (change : Settings → Settings)
    (h : ∀ fault, check = .error fault → fault.isFatal = false) :
    Refuses fun s ↦ do
      check
      return change s := by
  intro s fault hs
  cases check with
  | ok => cases hs
  | error fault' =>
    obtain rfl := Except.error.inj hs
    exact h _ rfl

theorem refuses_withKey (key : List Int32) : Refuses (·.withKey key) :=
  refuses_checked (fun s ↦ { s with key }) fun _ ↦ checkList_error

theorem refuses_withVolume (volume : List Float) : Refuses (·.withVolume volume) :=
  refuses_checked (fun s ↦ { s with volume }) fun _ ↦ checkList_error

theorem refuses_withStaccato (staccato : List Float) : Refuses (·.withStaccato staccato) :=
  refuses_checked (fun s ↦ { s with staccato }) fun _ ↦ checkList_error

theorem refuses_withScalar (name : String) (value : Float) : Refuses (·.withScalar name value) := by
  intro s fault h
  simp only [Settings.withScalar, Settings.withTrace] at h
  split at h
  · split at h <;> cases h
    rfl
  · split at h
    next dial _ =>
      simp only [Dial.check] at h
      split at h <;> cases h
      rfl
    next => cases h; rfl

section Bodies

variable (name : String) (values : List Value)

theorem modest_adjust {change : Settings → Except Fault Settings} (h : Refuses change)
    (phrases : List Phrase) :
    Modest phrases (do adjust change; return none) :=
  (silent_adjust h).modest fun _ _ ↦ .done

theorem silent_shiftedKey (shift : Int) : (shiftedKey name shift).Silent fun _ ↦ True := by
  refine .settings ?_
  intro s
  dsimp only
  split
  · exact (Silent.ofExcept (P := fun _ ↦ True) (fun _ _ ↦ trivial) fun _ ↦
      checkList_error).bind fun _ _ ↦
      .done trivial
  · exact (direct_refuse _ _ _).silent

theorem modest_scalar (setting : String) : (scalar setting name values).Modest (phrasesOf values) :=
  (direct_number name values 0).silent.modest fun value _ ↦
    modest_adjust (refuses_withScalar setting value) _

theorem modest_key : (key name values).Modest (phrasesOf values) :=
  (direct_numbers name values 0).silent.modest fun _ _ ↦ modest_adjust (refuses_withKey _) _

theorem modest_octave : (octave name values).Modest (phrasesOf values) := by
  refine (direct_whole name values 0).silent.modest ?_
  intro octaves _
  split
  · exact (silent_shiftedKey name _).modest fun _ _ ↦ modest_adjust (refuses_withKey _) _
  · exact .fail rfl

theorem modest_volume : (volume name values).Modest (phrasesOf values) :=
  (direct_numbers name values 0).silent.modest fun _ _ ↦ modest_adjust (refuses_withVolume _) _

def staccatoPlace : Script Nat := do
  let index ← if values.length > 1 then whole name values 1 else done 1
  if index < 0 then refuse name .negativeStaccato
  return index.toNat

/-- Sets the share at a place of the table, up to the first place past its end. -/
def putStaccato (share : Float) (place : Nat) : Script (Option Passage) :=
  settings fun s ↦
    if place ≤ s.staccato.length then do
      adjust (·.withStaccato (s.staccato.take place ++ share :: s.staccato.drop (place + 1)))
      return none
    else refuse name (.staccatoPastEnd place)

theorem direct_staccatoPlace : (staccatoPlace name values).Direct fun _ ↦ True := by
  have hplace (index : Int) : Direct (fun _ ↦ True) (do
      if index < 0 then refuse name .negativeStaccato
      return index.toNat) := by
    split
    · exact .fail rfl
    · exact .done trivial
  unfold staccatoPlace
  dsimp only
  split
  · exact (direct_whole name values 1).bind fun index _ ↦ hplace index
  · exact hplace 1

theorem staccato_eq : staccato name values = match values.head? with
    | some (.numbers table) => do adjust (·.withStaccato table); return none
    | _ =>
      number name values 0 >>= fun share ↦ staccatoPlace name values >>=
        putStaccato name share := by
  have hplace (share : Float) (place : Int) :
      (do if place < 0 then refuse name .negativeStaccato
          putStaccato name share place.toNat) =
        (do if place < 0 then refuse name .negativeStaccato
            return place.toNat) >>= putStaccato name share := by
    split <;> rfl
  have hput (share : Float) :
      (do let index ← if values.length > 1 then whole name values 1 else done 1
          if index < 0 then refuse name .negativeStaccato
          putStaccato name share index.toNat) = staccatoPlace name values >>=
          putStaccato name share := by
    unfold staccatoPlace
    dsimp only
    split
    · have hwhole := direct_whole name values 1
      generalize whole name values 1 = script at hwhole ⊢
      cases hwhole with
      | done => exact hplace share _
      | fail => rfl
    · exact hplace share 1
  unfold staccato
  generalize values.head? = first
  match first with
  | some (.numbers table) => rfl
  | none | some (.number _) | some (.text _) | some (.phrase _) =>
    exact congrArg (number name values 0 >>= ·) (funext hput)

theorem modest_staccato : (staccato name values).Modest (phrasesOf values) := by
  rw [staccato_eq]
  split
  · exact modest_adjust (refuses_withStaccato _) _
  · refine (direct_number name values 0).silent.modest ?_
    intro share _
    refine (direct_staccatoPlace name values).silent.modest ?_
    intro place _
    refine .settings ?_
    intro s
    split
    · exact modest_adjust (refuses_withStaccato _) _
    · exact .fail rfl

theorem modest_tuplet : (tuplet name values).Modest (phrasesOf values) := by
  refine (direct_number name values 0).silent.modest ?_
  intro count _
  dsimp only
  split
  · exact .fail rfl
  · exact (direct_phrase name values 1).silent.modest fun _ hp ↦ .settings fun _ ↦
      modest_passage (mem_phrasesOf hp) _

theorem modest_transpose : (transpose name values).Modest (phrasesOf values) :=
  (direct_whole name values 0).silent.modest fun _ _ ↦
    (direct_phrase name values 1).silent.modest fun _ hp ↦
    (silent_shiftedKey name _).modest fun _ _ ↦ modest_passage (mem_phrasesOf hp) _

end Bodies

theorem modest_standard : ∀ f ∈ standard, ∀ called values,
    (f.2 called values).Modest (phrasesOf values) := by
  have hscalar (setting : String) :
      ∀ called values, (scalar setting called values).Modest (phrasesOf values) :=
    fun called values ↦ modest_scalar called values setting
  simp only [standard, List.forall_mem_cons]
  exact ⟨hscalar _, hscalar _, hscalar _, hscalar _, hscalar _, hscalar _, hscalar _, hscalar _,
    hscalar _, hscalar _, modest_key, modest_octave, modest_volume, modest_staccato, modest_tuplet,
    modest_transpose, nofun⟩

end Script

namespace Repertoire

/-- The functions that scores find are among those every rendition begins with. -/
def OnlyStandard (r : Repertoire) : Prop :=
  ∀ name function, r.functions.find? name = some function →
    ∃ f ∈ Script.standard, f.1 = name ∧ function = { body := f.2 }

theorem onlyStandard_standard : standard.OnlyStandard := by
  intro name function h
  obtain ⟨f, hf, he⟩ := List.mem_map.mp (Table.mem_of_find?_ofList h)
  exact ⟨f, hf, congrArg Prod.fst he, (congrArg Prod.snd he).symm⟩

end Repertoire

end Rendition
