import Rendition.Proofs.Score.Matching
import Rendition.Proofs.Script.Standard

namespace Rendition

variable {edit : List Symbol → List Symbol} {loose : Bool}

structure Phrase.Matched (edit : List Symbol → List Symbol) (loose : Bool)
    (p q : Phrase) : Prop where
  times : q.times = p.times
  content : Rendition.Matched edit loose loose p.content q.content

theorem Phrase.Matched.written {p q : Phrase} (h : p.Matched edit loose q) :
    Rendition.Matched edit loose true p.written.1 q.written.1 ∧
      q.written.2.map Remark.unnumbered = p.written.2.map Remark.unnumbered := by
  unfold Phrase.written
  rw [h.times]
  split
  · exact ⟨h.content.mono fun _ ↦ rfl, rfl⟩
  · exact ⟨h.content.unfold _, h.content.unnumbered_unfold _⟩

namespace Value

/-- Values that are the same but for idle symbols in phrases. -/
inductive Matched (edit : List Symbol → List Symbol) (loose : Bool) : Value → Value → Prop
  | number (value : Float) : Matched edit loose (.number value) (.number value)
  | text (value : String) : Matched edit loose (.text value) (.text value)
  | numbers (values : List Float) : Matched edit loose (.numbers values) (.numbers values)
  | phrase {p q : Phrase} (h : p.Matched edit loose q) : Matched edit loose (.phrase p) (.phrase q)

structure AllMatched (edit : List Symbol → List Symbol) (loose : Bool)
    (vs ws : List Value) : Prop where
  length : ws.length = vs.length
  getElem? (i : Nat) : Option.Rel (Matched edit loose) vs[i]? ws[i]?

theorem AllMatched.cons {v w : Value} {vs ws : List Value} (h : v.Matched edit loose w)
    (hs : AllMatched edit loose vs ws) : AllMatched edit loose (v :: vs) (w :: ws) where
  length := congrArg Nat.succ hs.length
  getElem? i := by
    cases i with
    | zero => exact .some h
    | succ i => exact hs.getElem? i

theorem AllMatched.none_or_some {vs ws : List Value} (h : AllMatched edit loose vs ws) (i : Nat) :
    (vs[i]? = none ∧ ws[i]? = none) ∨ ∃ v w, vs[i]? = some v ∧ ws[i]? = some w ∧
    v.Matched edit loose w := by
  have hrel := h.getElem? i
  generalize vs[i]? = v at hrel ⊢
  generalize ws[i]? = w at hrel ⊢
  cases hrel with
  | none => exact .inl ⟨rfl, rfl⟩
  | some h => exact .inr ⟨_, _, rfl, rfl, h⟩

theorem ofArgument_edited (hedit : Spares edit loose) (argument : Argument) :
    (∃ e, ofArgument argument = .error e ∧ ofArgument (argument.edited edit) = .error e) ∨
      ∃ v w, ofArgument argument = .ok v ∧ ofArgument (argument.edited edit) = .ok w ∧
      v.Matched edit loose w := by
  cases argument with
  | number value => exact .inr ⟨_, _, rfl, rfl, .number value⟩
  | text value => exact .inr ⟨_, _, rfl, rfl, .text value⟩
  | numbers values => exact .inr ⟨_, _, rfl, rfl, .numbers values⟩
  | formula source =>
    cases h : Formula.evaluate source with
    | error fault =>
      refine .inl ⟨(source, fault), ?_, ?_⟩ <;> simp only [Argument.edited, ofArgument, h] <;> rfl
    | ok value =>
      refine .inr ⟨.number value, .number value, ?_, ?_, .number value⟩ <;>
        simp only [Argument.edited, ofArgument, h] <;> rfl
  | symbol symbol =>
    have hself : Rendition.Matched edit loose loose [symbol] [symbol.edited edit] := .both .nil
    refine .inr ?_
    cases symbol with
    | phrase times content => exact ⟨_, _, rfl, rfl, .phrase ⟨rfl, hedit content⟩⟩
    | note | call | theme | tie | barLine | clef | comment | space | marking =>
      exact ⟨_, _, rfl, rfl, .phrase ⟨rfl, hself⟩⟩

theorem mapM_edited (hedit : Spares edit loose) (arguments : List Argument) :
    (∃ e, arguments.mapM ofArgument = .error e ∧
      (Symbol.argumentsEdited edit arguments).mapM ofArgument = .error e) ∨
      ∃ vs ws, arguments.mapM ofArgument = .ok vs ∧
      (Symbol.argumentsEdited edit arguments).mapM ofArgument = .ok ws ∧
        AllMatched edit loose vs ws := by
  induction arguments with
  | nil => exact .inr ⟨[], [], rfl, rfl, rfl, fun _ ↦ .none⟩
  | cons argument rest ih =>
    rw [Symbol.argumentsEdited, List.mapM_cons, List.mapM_cons]
    obtain ⟨e, h, h'⟩ | ⟨v, w, h, h', hvw⟩ := ofArgument_edited hedit argument
    · rw [h, h']
      exact .inl ⟨e, rfl, rfl⟩
    · obtain ⟨e, hs, hs'⟩ | ⟨vs, ws, hs, hs', hall⟩ := ih
      · rw [h, h', hs, hs']
        exact .inl ⟨e, rfl, rfl⟩
      · rw [h, h', hs, hs']
        exact .inr ⟨v :: vs, w :: ws, rfl, rfl, hall.cons hvw⟩

end Value

/-- A relation between settings that changes of settings keep, and that leaves nothing a
function reads different. -/
structure Settings.Kept (S : Settings → Settings → Prop) : Prop where
  key {s t : Settings} (h : S s t) : t.key = s.key
  staccato {s t : Settings} (h : S s t) : t.staccato = s.staccato
  duration {s t : Settings} (h : S s t) : t.duration = s.duration
  setKey {s t : Settings} (h : S s t) (key : List Int32) : S { s with key } { t with key }
  setVolume {s t : Settings} (h : S s t) (volume : List Float) :
    S { s with volume } { t with volume }
  setStaccato {s t : Settings} (h : S s t) (staccato : List Float) :
    S { s with staccato } { t with staccato }
  setTrace {s t : Settings} (h : S s t) (trace : Nat) : S { s with trace } { t with trace }
  turn {s t : Settings} (h : S s t) (dial : Dial) (value : Float) :
    S (dial.turn s value) (dial.turn t value)
  override {s t : Settings} (h : S s t) (overrides : Overrides) :
    S (s.override overrides) (t.override overrides)

namespace Script

variable {S : Settings → Settings → Prop} {P : Phrase → Phrase → Prop}

/-- Two scripts that do the same in settings that `S` relates, and play phrases that `P` relates. -/
inductive Parallel (S : Settings → Settings → Prop) (P : Phrase → Phrase → Prop) :
    Script (Option Passage) → Script (Option Passage) → Prop
  | done : Parallel S P (.done none) (.done none)
  | fail {fault : Fault} (h : fault.isFatal = false) : Parallel S P (.fail fault) (.fail fault)
  | play {phrase phrase' : Phrase} {overrides : Overrides}
      {next next' : Except Fault Passage → Script (Option Passage)} (hp : P phrase phrase')
      (h : ∀ r, next r = ofExcept (r.map some)) (h' : ∀ r, next' r = ofExcept (r.map some)) :
      Parallel S P (.play phrase overrides .full next) (.play phrase' overrides .full next')
  | settings {next next' : Settings → Script (Option Passage)}
      (h : ∀ s t, S s t → Parallel S P (next s) (next' t)) :
      Parallel S P (.settings next) (.settings next')
  | setSettings {s t : Settings} {next next' : Script (Option Passage)} (hs : S s t)
      (h : Parallel S P next next') :
      Parallel S P (.setSettings s next) (.setSettings t next')

def Follows (S : Settings → Settings → Prop) (change : Settings → Except Fault Settings) : Prop :=
  ∀ s t, S s t → (∃ fault, fault.isFatal = false ∧ change s = .error fault ∧
    change t = .error fault) ∨
    ∃ s' t', change s = .ok s' ∧ change t = .ok t' ∧ S s' t'

theorem follows_checked {check : Except Fault Unit} {change : Settings → Settings}
    (h : ∀ fault, check = .error fault → fault.isFatal = false)
    (hchange : ∀ s t, S s t → S (change s) (change t)) :
    Follows S fun s ↦ do
      check
      return change s := by
  intro s t hst
  cases check with
  | ok => exact .inr ⟨_, _, rfl, rfl, hchange s t hst⟩
  | error fault => exact .inl ⟨fault, h fault rfl, rfl, rfl⟩

section Changes

variable (hS : Settings.Kept S)
include hS

theorem follows_withKey (key : List Int32) : Follows S (·.withKey key) :=
  follows_checked (fun _ ↦ checkList_error) fun _ _ h ↦ hS.setKey h key

theorem follows_withVolume (volume : List Float) : Follows S (·.withVolume volume) :=
  follows_checked (fun _ ↦ checkList_error) fun _ _ h ↦ hS.setVolume h volume

theorem follows_withStaccato (staccato : List Float) : Follows S (·.withStaccato staccato) :=
  follows_checked (fun _ ↦ checkList_error) fun _ _ h ↦ hS.setStaccato h staccato

theorem follows_withScalar (name : String) (value : Float) :
    Follows S (·.withScalar name value) := by
  intro s t h
  simp only [Settings.withScalar, Settings.withTrace]
  split
  · split
    · exact .inl ⟨_, rfl, rfl, rfl⟩
    · exact .inr ⟨_, _, rfl, rfl, hS.setTrace h _⟩
  · split
    next dial _ =>
      have hturn (s t : Settings) (h : S s t) : S (dial.turn s value) (dial.turn t value) :=
        hS.turn h dial value
      refine follows_checked (fun fault hf ↦ ?_) hturn s t h
      unfold Dial.check at hf
      split at hf <;> cases hf
      rfl
    next => exact .inl ⟨_, rfl, rfl, rfl⟩

end Changes

theorem Direct.parallel {α : Type} {Q : α → Prop} {script : Script α}
    {next next' : α → Script (Option Passage)} (h : script.Direct Q)
    (hn : ∀ a, Q a → Parallel S P (next a) (next' a)) :
    Parallel S P (script >>= next) (script >>= next') := by
  cases h with
  | done ha => exact hn _ ha
  | fail hf => exact .fail hf

theorem parallel_adjust {change : Settings → Except Fault Settings} (h : Follows S change) :
    Parallel S P (do adjust change; return none) (do adjust change; return none) := by
  refine .settings fun s t hst ↦ ?_
  dsimp only
  obtain ⟨fault, hf, hs, ht⟩ | ⟨s', t', hs, ht, hst'⟩ := h s t hst
  · rw [hs, ht]
    exact .fail hf
  · rw [hs, ht]
    exact .setSettings hst' .done

theorem parallel_passage {phrase phrase' : Phrase} (h : P phrase phrase') (overrides : Overrides) :
    Parallel S P (some <$> passage phrase overrides .full)
      (some <$> passage phrase' overrides .full) :=
  .play h ofExcept_bind_some ofExcept_bind_some

theorem parallel_shiftedKey (hS : Settings.Kept S) (name : String) (shift : Int)
    {next next' : List Int32 → Script (Option Passage)}
    (hn : ∀ key, Parallel S P (next key) (next' key)) :
    Parallel S P (shiftedKey name shift >>= next) (shiftedKey name shift >>= next') := by
  refine .settings fun s t hst ↦ ?_
  dsimp only
  rw [hS.key hst]
  split
  · cases hc : Settings.checkKey ((s.key.map (·.toInt + shift)).map Int32.ofInt) with
    | ok => exact hn _
    | error fault => exact .fail (checkList_error hc)
  · exact .fail rfl

section Arguments

variable {vs ws : List Value} (h : Value.AllMatched edit loose vs ws) (name : String)
  (position : Nat)
include h

theorem number_matched : number name ws position = number name vs position := by
  unfold number argument
  obtain ⟨hv, hw⟩ | ⟨v, w, hv, hw, hvalue⟩ := h.none_or_some position
  · rw [hv, hw]
  · rw [hv, hw]
    cases hvalue <;> rfl

theorem numbers_matched : numbers name ws position = numbers name vs position := by
  unfold numbers argument
  obtain ⟨hv, hw⟩ | ⟨v, w, hv, hw, hvalue⟩ := h.none_or_some position
  · rw [hv, hw]
  · rw [hv, hw]
    cases hvalue <;> rfl

theorem whole_matched : whole name ws position = whole name vs position := by
  rw [whole, whole, number_matched h]

theorem parallel_phrase {next next' : Phrase → Script (Option Passage)}
    (hn : ∀ p q, p.Matched edit loose q → Parallel S P (next p) (next' q)) :
    Parallel S P (phrase name vs position >>= next) (phrase name ws position >>= next') := by
  unfold phrase argument
  obtain ⟨hv, hw⟩ | ⟨v, w, hv, hw, hvalue⟩ := h.none_or_some position
  · rw [hv, hw]
    exact .fail rfl
  · rw [hv, hw]
    cases hvalue with
    | number | text | numbers => exact .fail rfl
    | phrase hp => exact hn _ _ hp

end Arguments

section Bodies

variable (hS : Settings.Kept S) {vs ws : List Value} (h : Value.AllMatched edit loose vs ws)
  (name : String)
include hS h

theorem parallel_scalar (setting : String) :
    Parallel S P (scalar setting name vs) (scalar setting name ws) := by
  rw [scalar, scalar, number_matched h]
  exact (direct_number name vs 0).parallel fun value _ ↦
    parallel_adjust (follows_withScalar hS setting value)

theorem parallel_key : Parallel S P (key name vs) (key name ws) := by
  rw [key, key, numbers_matched h]
  exact (direct_numbers name vs 0).parallel fun _ _ ↦ parallel_adjust (follows_withKey hS _)

theorem parallel_octave : Parallel S P (octave name vs) (octave name ws) := by
  rw [octave, octave, whole_matched h]
  refine (direct_whole name vs 0).parallel fun octaves _ ↦ ?_
  split
  · exact parallel_shiftedKey hS name _ fun _ ↦ parallel_adjust (follows_withKey hS _)
  · exact .fail rfl

theorem parallel_volume : Parallel S P (volume name vs) (volume name ws) := by
  rw [volume, volume, numbers_matched h]
  exact (direct_numbers name vs 0).parallel fun _ _ ↦ parallel_adjust (follows_withVolume hS _)

theorem parallel_tuplet :
    Parallel S (Phrase.Matched edit loose) (tuplet name vs) (tuplet name ws) := by
  rw [tuplet, tuplet, number_matched h]
  refine (direct_number name vs 0).parallel fun count _ ↦ ?_
  dsimp only
  split
  · exact .fail rfl
  · refine parallel_phrase h name 1 fun p q hp ↦ .settings fun s t hst ↦ ?_
    rw [hS.duration hst]
    exact parallel_passage hp _

theorem parallel_transpose :
    Parallel S (Phrase.Matched edit loose) (transpose name vs) (transpose name ws) := by
  rw [transpose, transpose, whole_matched h]
  exact (direct_whole name vs 0).parallel fun shift _ ↦ parallel_phrase h name 1 fun p q hp ↦
    parallel_shiftedKey hS name shift fun _ ↦ parallel_passage hp _

theorem parallel_staccato : Parallel S P (staccato name vs) (staccato name ws) := by
  have hplace : staccatoPlace name ws = staccatoPlace name vs := by
    rw [staccatoPlace, staccatoPlace, h.length, whole_matched h]
  rw [staccato_eq, staccato_eq, number_matched h, hplace, List.head?_eq_getElem?,
    List.head?_eq_getElem?]
  have hput : Parallel S P
      (number name vs 0 >>= fun share ↦ staccatoPlace name vs >>= putStaccato name share)
      (number name vs 0 >>= fun share ↦ staccatoPlace name vs >>= putStaccato name share) := by
    refine (direct_number name vs 0).parallel fun share _ ↦ (direct_staccatoPlace name vs).parallel
      fun place _ ↦ ?_
    refine .settings fun s t hst ↦ ?_
    rw [hS.staccato hst]
    split
    · exact parallel_adjust (follows_withStaccato hS _)
    · exact .fail rfl
  obtain ⟨hv, hw⟩ | ⟨v, w, hv, hw, hvalue⟩ := h.none_or_some 0
  · rw [hv, hw]
    exact hput
  · rw [hv, hw]
    cases hvalue with
    | number | text | phrase => exact hput
    | numbers table => exact parallel_adjust (follows_withStaccato hS table)

end Bodies

theorem parallel_standard (hS : Settings.Kept S) {vs ws : List Value}
    (h : Value.AllMatched edit loose vs ws) :
    ∀ f ∈ standard, ∀ called, Parallel S (Phrase.Matched edit loose) (f.2 called vs)
      (f.2 called ws) := by
  have hscalar (setting : String) : ∀ called,
      Parallel S (Phrase.Matched edit loose) (scalar setting called vs)
      (scalar setting called ws) :=
    fun called ↦ parallel_scalar hS h called setting
  simp only [standard, List.forall_mem_cons]
  exact ⟨hscalar _, hscalar _, hscalar _, hscalar _, hscalar _, hscalar _, hscalar _, hscalar _,
    hscalar _, hscalar _, parallel_key hS h, parallel_octave hS h, parallel_volume hS h,
    parallel_staccato hS h, parallel_tuplet hS h, parallel_transpose hS h, List.forall_mem_nil _⟩

end Script

end Rendition
