import Rendition.Proofs.Script.Validity

namespace Rendition.Script

/-- The standard functions that play a phrase. All others change the settings of the
passage that calls them. -/
def players : List String := ["Tuplet", "Transpose"]

/-- What a player plays where `s` are the settings of the caller, and what it overrides in them. -/
inductive Lends (values : List Value) (s : Settings) : String → Phrase → Overrides → Prop
  | tuplet {count : Float} {phrase : Phrase} (hc : NumberAt values 0 count) (hpos : 0 < count)
      (hp : values[1]? = some (.phrase phrase)) :
      Lends values s "Tuplet" phrase
      { duration := some (s.duration + (count.log2 - count.log2.floor)) }
  | transpose {shift : Float} {phrase : Phrase} {key : List Int32} (hs : NumberAt values 0 shift)
      (hsums : key.map Int32.toInt = s.key.map (·.toInt + Number.truncate shift))
      (hk : Settings.checkKey key = .ok ()) (hp : values[1]? = some (.phrase phrase)) :
      Lends values s "Transpose" phrase { key := some key }

section Lends

variable {values : List Value} {s : Settings} {name : String} {phrase : Phrase}
  {overrides : Overrides}

theorem Lends.mem_players (h : Lends values s name phrase overrides) : name ∈ players := by
  cases h <;> decide

theorem Lends.phrase_at (h : Lends values s name phrase overrides) :
    values[1]? = some (.phrase phrase) := by
  cases h <;> assumption

end Lends

/-- A script that does what the body of the standard function `name` may do where `s` are the
settings of the caller: a player plays one phrase and hands over what it gives, any other function
keeps the settings valid. -/
inductive Orderly (name : String) (values : List Value) : Settings → Script (Option Passage) → Prop
  | done {s : Settings} : Orderly name values s (.done none)
  | fail {s : Settings} {fault : Fault} (h : fault.isFatal = false) :
      Orderly name values s (.fail fault)
  | settings {s : Settings} {next : Settings → Script (Option Passage)}
      (h : Orderly name values s (next s)) :
      Orderly name values s (.settings next)
  | setSettings {s s' : Settings} {next : Script (Option Passage)} (hname : name ∉ players)
      (hvalid : s.Valid → s'.Valid) (h : Orderly name values s' next) :
      Orderly name values s (.setSettings s' next)
  | play {s : Settings} {phrase : Phrase} {overrides : Overrides}
      {next : Except Fault Passage → Script (Option Passage)}
      (hlends : Lends values s name phrase overrides) (h : ∀ r, next r = ofExcept (r.map some)) :
      Orderly name values s (.play phrase overrides .full next)

variable {name : String} {values : List Value} {s : Settings}

theorem Direct.orderly {α : Type} {P : α → Prop} {script : Script α}
    {next : α → Script (Option Passage)} (h : script.Direct P)
    (hn : ∀ a, P a → Orderly name values s (next a)) :
    Orderly name values s (script >>= next) := by
  cases h with
  | done ha => exact hn _ ha
  | fail hf => exact .fail hf

theorem toInt_ofInt_of_fitsOffset {n : Int} (h : fitsOffset n) : (Int32.ofInt n).toInt = n := by
  obtain ⟨hlowest, hhighest⟩ : -0x7fffffff - 1 ≤ n ∧ n ≤ 0x7fffffff := of_decide_eq_true h
  exact Int32.toInt_ofInt_of_le (by omega) (by omega)

theorem orderly_shiftedKey {shift : Int} {next : List Int32 → Script (Option Passage)}
    (hn : ∀ key : List Int32, key.map Int32.toInt = s.key.map (·.toInt + shift) →
      Settings.checkKey key = .ok () → Orderly name values s (next key)) :
    Orderly name values s (shiftedKey name shift >>= next) := by
  refine .settings ?_
  dsimp only
  split
  next hfits =>
    have hsums : ((s.key.map (·.toInt + shift)).map Int32.ofInt).map Int32.toInt =
        s.key.map (·.toInt + shift) := by
      rw [List.map_map]
      refine (List.map_congr_left fun n hn ↦ ?_).trans (List.map_id _)
      exact toInt_ofInt_of_fitsOffset (List.all_eq_true.mp hfits n hn)
    cases hk : Settings.checkKey ((s.key.map (·.toInt + shift)).map Int32.ofInt) with
    | ok => exact hn _ hsums hk
    | error fault => exact .fail (checkList_error hk)
  · exact .fail rfl

theorem orderly_passage {phrase : Phrase} {overrides : Overrides}
    (h : Lends values s name phrase overrides) :
    Orderly name values s (some <$> passage phrase overrides .full) := .play h ofExcept_bind_some

theorem orderly_tuplet : (tuplet "Tuplet" values).Orderly "Tuplet" values s := by
  refine (direct_number _ values 0).orderly ?_
  intro count hcount
  dsimp only
  split
  · exact .fail rfl
  next hpos =>
    refine (direct_phrase _ values 1).orderly ?_
    intro phrase hphrase
    exact .settings (orderly_passage
      (.tuplet hcount (Number.pos_of_not_le_zero hcount.2 hpos) hphrase))

theorem orderly_transpose : (transpose "Transpose" values).Orderly "Transpose" values s := by
  refine (direct_whole _ values 0).orderly ?_
  rintro _ ⟨shift, hshift, rfl⟩
  refine (direct_phrase _ values 1).orderly ?_
  intro phrase hphrase
  exact orderly_shiftedKey fun _ hsums hkey ↦ orderly_passage (.transpose hshift hsums hkey hphrase)

section Setters

variable (hname : name ∉ players)
include hname

theorem orderly_adjust {change : Settings → Except Fault Settings} (hr : Refuses change)
    (hk : Settings.KeepsValid change) : Orderly name values s (do adjust change; return none) := by
  refine .settings ?_
  dsimp only
  cases hs : change s with
  | ok s' => exact .setSettings hname (fun h ↦ hk s s' h hs) .done
  | error fault => exact .fail (hr s fault hs)

theorem orderly_scalar (setting : String) : (scalar setting name values).Orderly name values s :=
  (direct_number name values 0).orderly fun value _ ↦
    orderly_adjust hname (refuses_withScalar setting value)
      (Settings.keepsValid_withScalar setting value)

theorem orderly_key : (key name values).Orderly name values s :=
  (direct_numbers name values 0).orderly fun _ _ ↦
    orderly_adjust hname (refuses_withKey _) (Settings.keepsValid_withKey _)

theorem orderly_octave : (octave name values).Orderly name values s := by
  refine (direct_whole name values 0).orderly ?_
  intro octaves _
  split
  · exact orderly_shiftedKey fun _ _ _ ↦
      orderly_adjust hname (refuses_withKey _) (Settings.keepsValid_withKey _)
  · exact .fail rfl

theorem orderly_volume : (volume name values).Orderly name values s :=
  (direct_numbers name values 0).orderly fun _ _ ↦
    orderly_adjust hname (refuses_withVolume _) (Settings.keepsValid_withVolume _)

theorem orderly_staccato : (staccato name values).Orderly name values s := by
  rw [staccato_eq]
  split
  · exact orderly_adjust hname (refuses_withStaccato _) (Settings.keepsValid_withStaccato _)
  · refine (direct_number name values 0).orderly fun share _ ↦
      (direct_staccatoPlace name values).orderly fun place _ ↦ .settings ?_
    split
    · exact orderly_adjust hname (refuses_withStaccato _) (Settings.keepsValid_withStaccato _)
    · exact .fail rfl

end Setters

theorem orderly_standard : ∀ f ∈ standard, ∀ values s, (f.2 f.1 values).Orderly f.1 values s := by
  simp only [standard, List.forall_mem_cons]
  exact ⟨fun _ _ ↦ orderly_scalar (by decide) _, fun _ _ ↦ orderly_scalar (by decide) _,
    fun _ _ ↦ orderly_scalar (by decide) _, fun _ _ ↦ orderly_scalar (by decide) _,
    fun _ _ ↦ orderly_scalar (by decide) _, fun _ _ ↦ orderly_scalar (by decide) _,
    fun _ _ ↦ orderly_scalar (by decide) _, fun _ _ ↦ orderly_scalar (by decide) _,
    fun _ _ ↦ orderly_scalar (by decide) _, fun _ _ ↦ orderly_scalar (by decide) _,
    fun _ _ ↦ orderly_key (by decide), fun _ _ ↦ orderly_octave (by decide),
      fun _ _ ↦ orderly_volume (by decide),
    fun _ _ ↦ orderly_staccato (by decide), fun _ _ ↦ orderly_tuplet, fun _ _ ↦ orderly_transpose,
    List.forall_mem_nil _⟩

end Rendition.Script
