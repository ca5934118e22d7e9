import Rendition.Format.Score
import Rendition.Proofs.Format.Reading
import Rendition.Proofs.Score.Parts

namespace Rendition

open Datum

namespace Degree

/-- A degree in the form in which it is read: a name is none of the texts that stand
for another degree. -/
def IsDecoded : Degree → Prop
  | scale step => 1 ≤ step ∧ step ≤ 7
  | named name => name ∉ ["0", "x", "%", "1", "2", "3", "4", "5", "6", "7"]
  | rest | unpitched | retrace => True

instance : DecidablePred IsDecoded
  | scale step => inferInstanceAs (Decidable (1 ≤ step ∧ step ≤ 7))
  | named name => inferInstanceAs (Decidable (name ∉ _))
  | rest | unpitched | retrace => .isTrue trivial

theorem isDecoded_ofString (s : String) : (ofString s).IsDecoded := by
  unfold ofString
  split
  case h_11 => simp_all [IsDecoded]
  all_goals simp [IsDecoded]

theorem ofString_toString {degree : Degree} (h : degree.IsDecoded) :
    ofString degree.toString = degree := by
  cases degree with
  | rest | unpitched | retrace => rfl
  | scale step =>
    obtain ⟨hlow, hhigh⟩ := h
    have hall : ∀ n < 8, 1 ≤ n → ofString (toString (scale (.ofNat n))) = scale (.ofNat n) := by
      decide
    have hstep := hall step.toNat (Nat.lt_succ_of_le (UInt8.le_iff_toNat_le.mp hhigh))
      (UInt8.le_iff_toNat_le.mp hlow)
    rwa [UInt8.ofNat_toNat] at hstep
  | named name =>
    change ofString name = named name
    unfold ofString
    split <;> simp_all [IsDecoded]

end Degree

theorem WrittenPitch.faithful (layer : Layer) :
    Faithful (fun p : WrittenPitch ↦ p.degree.IsDecoded) toDatum (ofDatum? layer) where
  read_write h := by
    simp [toDatum, ofDatum?, Layer.fields?, Degree.ofString_toString h]
  decoded_of_read h := by
    simp only [ofDatum?, bind, Option.bind_eq_some_iff] at h
    obtain ⟨fields, -, name, -, shifts, -, chords, -, dynamics, -, h⟩ := h
    cases h
    exact Degree.isDecoded_ofString name

def Note.IsDecoded (note : Note) : Prop := ∀ p ∈ note.pitches, p.degree.IsDecoded

instance : DecidablePred Note.IsDecoded :=
  fun note ↦ inferInstanceAs (Decidable (∀ p ∈ note.pitches, _))

theorem Note.ofFields?_toFields {note : Note} (h : note.IsDecoded) (layer : Layer) :
    Note.ofFields? layer (("type", text "Note") :: note.toFields) = some note := by
  simp [toFields, ofFields?, (WrittenPitch.faithful layer).list.read_write h]

theorem Note.isDecoded_of_ofFields? {note : Note} {fields : List (String × Datum)} {layer : Layer}
    (h : Note.ofFields? layer fields = some note) : note.IsDecoded := by
  simp only [ofFields?, bind, Option.bind_eq_some_iff] at h
  obtain ⟨pitches, hpitches, shifts, -, lengths, -, dynamics, -, staccato, -, h⟩ := h
  cases h
  exact (WrittenPitch.faithful layer).list.decoded_of_orElse hpitches nofun

theorem BarLine.ofFields?_toFields (bar : BarLine) :
    BarLine.ofFields? (("type", text "BarLine") :: bar.toFields) = some bar := by
  have horder :
      nullable (list? uint32?) (ofOption (ofList fun pass : UInt32 ↦ ofNat pass.toNat) bar.order) =
      some bar.order :=
    nullable_ofOption nofun (fun _ ↦ list?_ofList fun pass _ ↦ uint32?_ofNat pass) bar.order
  simp [toFields, ofFields?, horder]

@[simp] theorem Symbol.split?_record (layer : Layer) (kind : String)
    (fields : List (String × Datum)) :
    Symbol.split? layer (record (("type", text kind) :: fields)) =
      some (kind, ⟨("type", text kind) :: fields, fun _ ↦ Layer.sizeOf_lt_of_mem_record⟩) := by
  simp [Symbol.split?, Symbol.kind?, Layer.name?]

@[simp] theorem Argument.split?_record (layer : Layer) (kind : String) (value : Datum) :
    Argument.split? layer (record [("type", Datum.text kind), ("value", value)]) =
      some (kind,
        ⟨value, Layer.sizeOf_lt_of_mem_record (List.mem_cons_of_mem _ List.mem_cons_self)⟩) := by
  simp [Argument.split?, Argument.kind?, Layer.part?, find]

def Symbol.IsDecoded : Symbol → Prop
  | .note n => n.IsDecoded
  | _ => True

instance : DecidablePred Symbol.IsDecoded
  | .note n => inferInstanceAs (Decidable n.IsDecoded)
  | .call .. | .phrase .. | .theme _ | .tie | .barLine _ | .clef _ | .comment _ | .space
  | .marking _ => .isTrue trivial

mutual

-- The recursion is that of writing: a part is read by the function that its own case is about.
theorem Symbol.ofDatum?_toDatum (layer : Layer) :
    (s : Symbol) → (∀ part ∈ s.parts, part.IsDecoded) → Symbol.ofDatum? layer s.toDatum = some s
  | .note note, h => by
    have hnote : note.IsDecoded := h _ (Symbol.mem_parts_self _)
    simp [Symbol.toDatum, Symbol.ofDatum?, Note.ofFields?_toFields hnote]
  | .call function arguments, h => by
    have ha := argumentsOfData?_argumentsToData arguments fun part hpart ↦
      h part (List.mem_cons_of_mem _ hpart)
    simp [Symbol.toDatum, Symbol.ofDatum?, Layer.part?, find, ha]
  | .phrase times content, h => by
    have hc := contentOfData?_contentToData .inner content fun part hpart ↦
      h part (List.mem_cons_of_mem _ hpart)
    simp [Symbol.toDatum, Symbol.ofDatum?, Layer.part?, find, hc]
  | .theme name, h => by
    simp [Symbol.toDatum, Symbol.ofDatum?]
  | .tie, h => by
    simp [Symbol.toDatum, Symbol.ofDatum?]
  | .barLine bar, h => by
    simp [Symbol.toDatum, Symbol.ofDatum?, BarLine.ofFields?_toFields]
  | .clef name, h => by
    simp [Symbol.toDatum, Symbol.ofDatum?]
  | .comment value, h => by
    simp [Symbol.toDatum, Symbol.ofDatum?]
  | .space, h => by
    simp [Symbol.toDatum, Symbol.ofDatum?]
  | .marking kind, h => by
    simp [Symbol.toDatum, Symbol.ofDatum?]

theorem contentOfData?_contentToData (layer : Layer) :
    (content : List Symbol) → Symbol.Throughout Symbol.IsDecoded content →
      contentOfData? layer (contentToData content) = some content
  | [], _ => by simp [contentToData, contentOfData?]
  | s :: rest, h => by
    obtain ⟨hs, hrest⟩ := Symbol.throughout_cons.mp h
    simp [contentToData, contentOfData?, Symbol.ofDatum?_toDatum layer s hs,
      contentOfData?_contentToData layer rest hrest]

theorem Argument.ofDatum?_toDatum (layer : Layer) :
    (a : Argument) → (∀ part ∈ a.parts, part.IsDecoded) → Argument.ofDatum? layer a.toDatum = some a
  | .number value, _ => by
    simp [Argument.toDatum, Argument.ofDatum?]
  | .text value, _ => by
    simp [Argument.toDatum, Argument.ofDatum?]
  | .numbers values, _ => by
    have hv : list? real? (ofList real values) = some values :=
      list?_ofList fun value _ ↦ real?_real value
    simp [Argument.toDatum, Argument.ofDatum?, hv]
  | .formula source, _ => by
    simp [Argument.toDatum, Argument.ofDatum?]
  | .symbol value, h => by
    simp [Argument.toDatum, Argument.ofDatum?, Symbol.ofDatum?_toDatum layer value h]

theorem argumentsOfData?_argumentsToData :
    (arguments : List Argument) → (∀ part ∈ Symbol.argumentsParts arguments, part.IsDecoded) →
      argumentsOfData? (argumentsToData arguments) = some arguments
  | [], _ => by simp [argumentsToData, argumentsOfData?]
  | a :: rest, h => by
    rw [Symbol.argumentsParts, List.forall_mem_append] at h
    simp [argumentsToData, argumentsOfData?, Argument.ofDatum?_toDatum .inner a h.1,
      argumentsOfData?_argumentsToData rest h.2]

end

theorem Symbol.parts_of_ofDatum? {layer : Layer} {d : Datum} {s : Symbol}
    (h : Symbol.ofDatum? layer d = some s) :
    match s with
    | .note n => n.IsDecoded
    | .call _ arguments => ∃ items, argumentsOfData? items = some arguments
    | .phrase _ content => ∃ items, contentOfData? .inner items = some content
    | _ => True := by
  rw [Symbol.ofDatum?] at h
  obtain ⟨⟨kind, fields⟩, -, h⟩ := Option.bind_eq_some_iff.mp h
  dsimp only at h
  split at h
  case h_1 =>
    obtain ⟨n, hn, h⟩ := Option.bind_eq_some_iff.mp h
    cases h
    exact Note.isDecoded_of_ofFields? hn
  case h_2 =>
    obtain ⟨name, -, h⟩ := Option.bind_eq_some_iff.mp h
    split at h
    · obtain ⟨arguments, ha, h⟩ := Option.bind_eq_some_iff.mp h
      cases h
      exact ⟨_, ha⟩
    · cases h
    · cases h
      exact ⟨[], by rw [argumentsOfData?]⟩
  case h_3 =>
    obtain ⟨times, -, h⟩ := Option.bind_eq_some_iff.mp h
    split at h
    · obtain ⟨content, hc, h⟩ := Option.bind_eq_some_iff.mp h
      cases h
      exact ⟨_, hc⟩
    · cases h
    · cases h
      exact ⟨[], by rw [contentOfData?]⟩
  case h_11 => cases h
  case h_5 | h_9 =>
    cases h
    trivial
  all_goals
    obtain ⟨field, -, h⟩ := Option.bind_eq_some_iff.mp h
    cases h
    trivial

mutual

-- The recursion is on what has been read: the same symbol may be written in several ways, and all
-- that the induction needs of the data is that each part of the symbol has been read from some.
theorem Symbol.isDecoded_of_ofDatum? :
    (s : Symbol) → {layer : Layer} → {d : Datum} → Symbol.ofDatum? layer d = some s →
    ∀ part ∈ s.parts, part.IsDecoded
  | .note n, _, _, h => List.forall_mem_singleton.mpr (Symbol.parts_of_ofDatum? h)
  | .call function arguments, _, _, h => by
    obtain ⟨items, ha⟩ := Symbol.parts_of_ofDatum? h
    exact List.forall_mem_cons.mpr ⟨trivial, isDecoded_of_argumentsOfData? arguments ha⟩
  | .phrase times content, _, _, h => by
    obtain ⟨items, hc⟩ := Symbol.parts_of_ofDatum? h
    exact List.forall_mem_cons.mpr ⟨trivial, isDecoded_of_contentOfData? content hc⟩
  | .theme _, _, _, _ | .tie, _, _, _ | .barLine _, _, _, _ | .clef _, _, _, _ | .comment _, _, _, _
  | .space, _, _, _
  | .marking _, _, _, _ => List.forall_mem_singleton.mpr trivial

theorem isDecoded_of_contentOfData? :
    (content : List Symbol) → {layer : Layer} → {items : List Datum} → contentOfData? layer items =
      some content →
      Symbol.Throughout Symbol.IsDecoded content
  | [], _, _, _ => nofun
  | s :: rest, layer, items, h => by
    cases items with
    | nil => simp [contentOfData?] at h
    | cons d items =>
      rw [contentOfData?] at h
      obtain ⟨s', hs, h⟩ := Option.bind_eq_some_iff.mp h
      obtain ⟨rest', hrest, h⟩ := Option.bind_eq_some_iff.mp h
      cases h
      exact Symbol.throughout_cons.mpr ⟨Symbol.isDecoded_of_ofDatum? s hs,
        isDecoded_of_contentOfData? rest hrest⟩

theorem Argument.isDecoded_of_ofDatum? :
    (a : Argument) → {layer : Layer} → {d : Datum} → Argument.ofDatum? layer d = some a →
      ∀ part ∈ a.parts, part.IsDecoded
  | .symbol value, layer, d, h => by
    rw [Argument.ofDatum?] at h
    obtain ⟨⟨kind, field, hfield⟩, -, h⟩ := Option.bind_eq_some_iff.mp h
    dsimp only at h
    split at h
    case h_6 => cases h
    all_goals obtain ⟨v, hv, h⟩ := Option.bind_eq_some_iff.mp h
    all_goals cases h
    exact Symbol.isDecoded_of_ofDatum? value hv
  | .number _, _, _, _ | .text _, _, _, _ | .numbers _, _, _, _ | .formula _, _, _, _ => nofun

theorem isDecoded_of_argumentsOfData? :
    (arguments : List Argument) → {items : List Datum} → argumentsOfData? items = some arguments →
      ∀ part ∈ Symbol.argumentsParts arguments, part.IsDecoded
  | [], _, _ => nofun
  | a :: rest, items, h => by
    cases items with
    | nil => simp [argumentsOfData?] at h
    | cons d items =>
      rw [argumentsOfData?] at h
      obtain ⟨a', ha, h⟩ := Option.bind_eq_some_iff.mp h
      obtain ⟨rest', hrest, h⟩ := Option.bind_eq_some_iff.mp h
      cases h
      exact List.forall_mem_append.mpr ⟨Argument.isDecoded_of_ofDatum? a ha,
        isDecoded_of_argumentsOfData? rest hrest⟩

end

namespace Argument

theorem faithful (layer : Layer) :
    Faithful (fun a : Argument ↦ ∀ part ∈ a.parts, part.IsDecoded) toDatum (ofDatum? layer) where
  read_write h := ofDatum?_toDatum layer _ h
  decoded_of_read h := isDecoded_of_ofDatum? _ h

theorem argumentsToData_eq_map (arguments : List Argument) :
    argumentsToData arguments = arguments.map toDatum := by
  induction arguments with
  | nil => rfl
  | cons a rest ih => rw [argumentsToData, ih, List.map_cons]

end Argument

theorem faithful_content :
    Faithful (Symbol.Throughout Symbol.IsDecoded) (fun content ↦ list (contentToData content))
      contentOfDatum? where
  read_write h := contentOfData?_contentToData .outer _ h
  decoded_of_read {d content} h := by
    unfold contentOfDatum? at h
    split at h
    · exact isDecoded_of_contentOfData? content h
    · cases h

namespace Call

def IsDecoded (call : Call) : Prop := Symbol.Throughout Symbol.IsDecoded [call.symbol]

instance : DecidablePred IsDecoded :=
  fun call ↦ inferInstanceAs (Decidable (Symbol.Throughout _ [call.symbol]))

theorem isDecoded_iff {call : Call} :
    call.IsDecoded ↔ ∀ a ∈ call.arguments, ∀ part ∈ a.parts, part.IsDecoded := by
  rw [IsDecoded, Symbol.throughout_singleton, symbol, Symbol.parts, List.forall_mem_cons,
    Symbol.forall_mem_argumentsParts]
  exact and_iff_right trivial

theorem faithful : Faithful IsDecoded toDatum ofDatum? where
  read_write {call} h := by
    have ha := (Argument.faithful .outer).list.read_write (isDecoded_iff.mp h)
    rw [ofList, ← Argument.argumentsToData_eq_map] at ha
    simp [toDatum, ofDatum?, ha]
  decoded_of_read h := by
    simp only [ofDatum?, bind, Option.bind_eq_some_iff] at h
    obtain ⟨fields, -, function, -, arguments, ha, h⟩ := h
    cases h
    exact isDecoded_iff.mpr ((Argument.faithful .outer).list.decoded_of_orElse ha
      (List.forall_mem_nil _))

end Call

theorem NamedPitch.faithful : Faithful (fun _ ↦ True) toDatum ofDatum? where
  read_write {p} _ := by
    obtain ⟨name, offsets | steps⟩ := p
    · have ho : list? int32? (ofList ofInt32 offsets) = some offsets :=
        list?_ofList fun n _ ↦ int32?_ofInt32 n
      simp [toDatum, ofDatum?, ho]
    · have hs : list? uint8? (ofList (fun n : UInt8 ↦ ofNat n.toNat) steps) = some steps :=
        list?_ofList fun n _ ↦ uint8?_ofNat n
      simp [toDatum, ofDatum?, hs]
  decoded_of_read _ := trivial

namespace Instrument

def IsDecoded (instrument : Instrument) : Prop :=
  Symbol.Throughout Symbol.IsDecoded instrument.opening

instance : DecidablePred IsDecoded := fun instrument ↦
  inferInstanceAs (Decidable (Symbol.Throughout _ instrument.opening))

theorem faithful : Faithful IsDecoded toDatum ofDatum? where
  read_write {instrument} h := by
    have hp : list? NamedPitch.ofDatum? (ofList NamedPitch.toDatum instrument.pitches) =
        some instrument.pitches :=
      NamedPitch.faithful.list.read_write fun _ _ ↦ trivial
    simp [toDatum, ofDatum?, faithful_content.read_write h, hp]
  decoded_of_read h := by
    simp only [ofDatum?, bind, Option.bind_eq_some_iff] at h
    obtain ⟨fields, -, name, -, opening, ho, pitches, -, h⟩ := h
    cases h
    exact faithful_content.decoded_of_orElse ho nofun

end Instrument

namespace Track

structure IsDecoded (track : Track) : Prop where
  instruments : ∀ instrument ∈ track.instruments, instrument.IsDecoded
  content : Symbol.Throughout Symbol.IsDecoded track.content

instance : DecidablePred IsDecoded := fun track ↦
  decidable_of_iff ((∀ instrument ∈ track.instruments, instrument.IsDecoded) ∧
    Symbol.Throughout Symbol.IsDecoded track.content) ⟨fun ⟨hi, hc⟩ ↦ ⟨hi, hc⟩,
    fun ⟨hi, hc⟩ ↦ ⟨hi, hc⟩⟩

theorem faithful : Faithful IsDecoded toDatum ofDatum? where
  read_write {track} h := by
    have hn : nullable word? (ofOption text track.name) = some track.name :=
      nullable_ofOption nofun word?_text track.name
    simp [toDatum, ofDatum?, hn, Instrument.faithful.list.read_write h.instruments,
      faithful_content.read_write h.content]
  decoded_of_read h := by
    simp only [ofDatum?, bind, Option.bind_eq_some_iff] at h
    obtain ⟨fields, -, id, -, name, -, plays, -, instruments, hi, content, hc, h⟩ := h
    cases h
    constructor
    · exact Instrument.faithful.list.decoded_of_orElse hi nofun
    · exact faithful_content.decoded_of_orElse hc nofun

end Track

namespace Section

structure IsDecoded (s : Section) : Prop where
  prolog : ∀ call ∈ s.prolog, call.IsDecoded
  settings : ∀ call ∈ s.settings, call.IsDecoded
  tracks : ∀ track ∈ s.tracks, track.IsDecoded

instance : DecidablePred IsDecoded := fun s ↦
  decidable_of_iff ((∀ call ∈ s.prolog, call.IsDecoded) ∧ (∀ call ∈ s.settings, call.IsDecoded) ∧
    ∀ track ∈ s.tracks, track.IsDecoded) ⟨fun ⟨hp, hs, ht⟩ ↦ ⟨hp, hs, ht⟩, fun ⟨hp, hs, ht⟩ ↦
    ⟨hp, hs, ht⟩⟩

theorem faithful : Faithful IsDecoded toDatum ofDatum? where
  read_write {s} h := by
    simp [toDatum, ofDatum?, Call.faithful.list.read_write h.prolog,
      Call.faithful.list.read_write h.settings, Track.faithful.list.read_write h.tracks]
  decoded_of_read h := by
    simp only [ofDatum?, bind, Option.bind_eq_some_iff] at h
    obtain ⟨fields, -, prolog, hp, settings, hs, tracks, ht, h⟩ := h
    cases h
    constructor
    · exact Call.faithful.list.decoded_of_orElse hp nofun
    · exact Call.faithful.list.decoded_of_orElse hs nofun
    · exact Track.faithful.list.decoded_of_orElse ht nofun

end Section

namespace Score

/-- All degrees in a score are decoded, however deep in phrases and arguments they are written. -/
def IsDecoded (score : Score) : Prop := ∀ s ∈ score.sections, s.IsDecoded

instance : DecidablePred IsDecoded :=
  fun score ↦ inferInstanceAs (Decidable (∀ s ∈ score.sections, s.IsDecoded))

theorem faithful : Faithful IsDecoded toDatum ofDatum? where
  read_write {score} h := by
    simp [toDatum, ofDatum?, Section.faithful.list.read_write h]
  decoded_of_read h := by
    simp only [ofDatum?, bind, Option.bind_eq_some_iff] at h
    obtain ⟨fields, -, sections, hs, h⟩ := h
    cases h
    exact Section.faithful.list.decoded_of_orElse hs nofun

/-- Reading undoes writing: a decoded score is written as data that reads as the score.
Whatever data reads as a score, this score is decoded, so that what is written for it, with all
defaults, reads as it again. -/
theorem read_written :
    (∀ score : Score, score.IsDecoded → ofDatum? score.toDatum = some score) ∧
      ∀ (d : Datum) (score : Score), ofDatum? d = some score →
        score.IsDecoded ∧ ofDatum? score.toDatum = some score := by
  constructor
  · intro score h
    exact faithful.read_write h
  · intro d score h
    have hscore := faithful.decoded_of_read h
    exact ⟨hscore, faithful.read_write hscore⟩

theorem read_written_nested :
    let chord : Symbol :=
      .note { pitches := [{ degree := .scale 3 }, { degree := .named "fa", shifts := "#" }] }
    let score : Score :=
      { sections := [{
          prolog := [{
            function := "tuplet"
            arguments := [.symbol (.phrase 2 [.tie, .call "trill" [.symbol chord]])] }]
          tracks := [{
            name := some "theme"
            content := [chord, .barLine { order := some [1, 2] }] }] }] }
    let d : Datum :=
      record [("sections", list [
        record [("tracks", list [
          record [("content", list [
            record [("type", text "Note"),
              ("pitches", list [record [("degree", text "7")]])]])]])]])]
    let seventh : Score :=
      { sections := [{
          tracks := [{ content := [.note { pitches := [{ degree := .scale 7 }] }] }] }] }
    (score.IsDecoded ∧ ofDatum? score.toDatum = some score) ∧
      ofDatum? d = some seventh ∧ seventh.IsDecoded ∧ ofDatum? seventh.toDatum = some seventh := by
  intro chord score d seventh
  have hscore : score.IsDecoded := by decide
  have hd : ofDatum? d = some seventh := by
    simp [d, seventh, ofDatum?, list?, Section.ofDatum?, Track.ofDatum?, contentOfDatum?,
      contentOfData?, Symbol.ofDatum?, Note.ofFields?, WrittenPitch.ofDatum?, Layer.fields?,
      Degree.ofString]
  exact ⟨⟨hscore, read_written.1 score hscore⟩, hd, read_written.2 d seventh hd⟩

end Score

end Rendition
