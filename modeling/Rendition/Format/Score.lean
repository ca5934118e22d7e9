import Rendition.Format.Layer
import Rendition.Score.Document

namespace Rendition

open Datum

namespace WrittenPitch

def toDatum (p : WrittenPitch) : Datum :=
  record
    [("degree", text p.degree.toString), ("pitch-ops", text p.shifts), ("chord", text p.chords),
      ("volume-ops", text p.dynamics)]

def ofDatum? (layer : Layer) (d : Datum) : Option WrittenPitch := do
  let ⟨fields, _⟩ ← layer.fields? ["degree", "pitch-ops", "chord", "volume-ops"] d
  return {
    degree := .ofString (← required fields "degree" layer.text?)
    shifts := ← orElse fields "pitch-ops" layer.text? ""
    chords := ← orElse fields "chord" layer.text? ""
    dynamics := ← orElse fields "volume-ops" layer.text? "" }

end WrittenPitch

namespace Note

def toFields (note : Note) : List (String × Datum) :=
  [("pitches", ofList WrittenPitch.toDatum note.pitches), ("pitch-ops", text note.shifts),
    ("duration-ops", text note.lengths), ("volume-ops", text note.dynamics),
    ("staccato", ofNat note.staccato.toNat)]

def ofFields? (layer : Layer) (fields : List (String × Datum)) : Option Note := do
  return {
    pitches := ← orElse fields "pitches" (list? (WrittenPitch.ofDatum? layer)) []
    shifts := ← orElse fields "pitch-ops" layer.text? ""
    lengths := ← orElse fields "duration-ops" layer.text? ""
    dynamics := ← orElse fields "volume-ops" layer.text? ""
    staccato := ← orElse fields "staccato" uint64? 0 }

end Note

namespace BarLine

def toFields (bar : BarLine) : List (String × Datum) :=
  [("skip", bool bar.skip), ("overlay", bool bar.overlay),
    ("order", ofOption (ofList fun pass : UInt32 ↦ ofNat pass.toNat) bar.order),
    ("terminal", bool bar.terminal)]

def ofFields? (fields : List (String × Datum)) : Option BarLine := do
  return {
    skip := ← orElse fields "skip" bool? false
    overlay := ← orElse fields "overlay" bool? false
    order := ← optional fields "order" (list? uint32?)
    terminal := ← orElse fields "terminal" bool? false }

end BarLine

mutual

def Symbol.toDatum : Symbol → Datum
  | .note note => record (("type", text "Note") :: note.toFields)
  | .call function arguments =>
    record [("type", text "Function"), ("name", text function),
      ("args", list (argumentsToData arguments))]
  | .phrase times content =>
    record [("type", text "Subtrack"), ("repeat", ofInt32 times),
      ("content", list (contentToData content))]
  | .theme name => record [("type", text "Macrotrack"), ("name", text name)]
  | .tie => record [("type", text "Tie")]
  | .barLine bar => record (("type", text "BarLine") :: bar.toFields)
  | .clef name => record [("type", text "Clef"), ("name", text name)]
  | .comment value => record [("type", text "Comment"), ("text", text value)]
  | .space => record [("type", text "Space")]
  | .marking kind => record [("type", text "Annotation"), ("kind", text kind)]

def contentToData : List Symbol → List Datum
  | [] => []
  | s :: rest => s.toDatum :: contentToData rest

def Argument.toDatum : Argument → Datum
  | .number value => record [("type", text "Number"), ("value", real value)]
  | .text value => record [("type", text "String"), ("value", text value)]
  | .numbers values => record [("type", text "Array"), ("value", ofList real values)]
  | .formula source => record [("type", text "Expression"), ("value", text source)]
  | .symbol value => record [("type", text "Token"), ("value", value.toDatum)]

def argumentsToData : List Argument → List Datum
  | [] => []
  | a :: rest => a.toDatum :: argumentsToData rest

end

namespace Symbol

/-- The kinds of symbols with the names of their fields, in the order in which both are counted. -/
def kinds : List (String × List String) :=
  [("Note", ["pitches", "pitch-ops", "duration-ops", "volume-ops", "staccato"]),
    ("Function", ["name", "args"]), ("Subtrack", ["repeat", "content"]), ("Macrotrack", ["name"]),
    ("Tie", []), ("BarLine", ["skip", "overlay", "order", "terminal"]), ("Clef", ["name"]),
    ("Comment", ["text"]), ("Space", []), ("Annotation", ["kind"])]

def kind? (layer : Layer) : Datum → Option String := layer.name? (kinds.map Prod.fst)

/-- The kind of a symbol and its fields: a record that names the kind as its type, or a list that
begins with the kind and goes on with the values of its first fields. -/
def split? (layer : Layer) : (d : Datum) → Option (String × Layer.FieldsOf d)
  | record fields => do
    return (← required fields "type" (kind? layer), ⟨fields, fun _ ↦ Layer.sizeOf_lt_of_mem_record⟩)
  | list (first :: items) => do
    let kind ← kind? layer first
    let names ← kinds.lookup kind
    if items.length ≤ names.length then
      return (kind, ⟨names.zip items, fun _ h ↦
        Layer.sizeOf_lt_of_mem_list (List.mem_cons_of_mem _ (Layer.mem_of_mem_zip h))⟩)
    else none
  | _ => none

end Symbol

namespace Argument

def kinds : List String := ["Number", "String", "Array", "Expression", "Token"]

/-- The type of an argument written as a record. Within a symbol it may also be the name of the only
field of a record, which gives it no more than null or an empty record. -/
def kind? : Layer → Datum → Option String
  | _, Datum.text kind => some kind
  | .inner, record [(kind, null)] | .inner, record [(kind, record [])] => some kind
  | _, _ => none

def split? (layer : Layer) : (d : Datum) → Option (String × { v : Datum // sizeOf v < sizeOf d })
  | record fields => do
    return (← required fields "type" (kind? layer),
      ← Layer.part? "value" ⟨fields, fun _ ↦ Layer.sizeOf_lt_of_mem_record⟩)
  | list [kind, value] =>
    if layer = .inner then do
      return (← layer.name? kinds kind, ⟨value, Layer.sizeOf_lt_of_mem_list (by simp)⟩)
    else none
  | _ => none

end Argument

mutual

def Symbol.ofDatum? (layer : Layer) (d : Datum) : Option Symbol := do
  let (kind, fields) ← Symbol.split? layer d
  match kind with
  | "Note" => return .note (← Note.ofFields? .inner fields.1)
  | "Function" =>
    let name ← required fields.1 "name" text?
    match Layer.part? "args" fields with
    | some ⟨list items, _⟩ => return .call name (← argumentsOfData? items)
    | some _ => none
    | none => return .call name []
  | "Subtrack" =>
    let times ← orElse fields.1 "repeat" int32? (-1)
    match Layer.part? "content" fields with
    | some ⟨list items, _⟩ => return .phrase times (← contentOfData? .inner items)
    | some _ => none
    | none => return .phrase times []
  | "Macrotrack" => return .theme (← required fields.1 "name" text?)
  | "Tie" => return .tie
  | "BarLine" => return .barLine (← BarLine.ofFields? fields.1)
  | "Clef" => return .clef (← orElse fields.1 "name" text? "")
  | "Comment" => return .comment (← orElse fields.1 "text" text? "")
  | "Space" => return .space
  | "Annotation" => return .marking (← required fields.1 "kind" text?)
  | _ => none
  termination_by sizeOf d
  decreasing_by
    all_goals
      simp_all only [list.sizeOf_spec]
      omega

def contentOfData? (layer : Layer) (ds : List Datum) : Option (List Symbol) :=
  match ds with
  | [] => some []
  | d :: rest => do return (← Symbol.ofDatum? layer d) :: (← contentOfData? layer rest)
  termination_by sizeOf ds

def Argument.ofDatum? (layer : Layer) (d : Datum) : Option Argument := do
  let (kind, ⟨value, _⟩) ← Argument.split? layer d
  match kind with
  | "Number" => return .number (← value.real?)
  | "String" => return .text (← layer.text? value)
  | "Array" => return .numbers (← value.list? real?)
  | "Expression" => return .formula (← layer.text? value)
  | "Token" => return .symbol (← Symbol.ofDatum? layer value)
  | _ => none
  termination_by sizeOf d
  decreasing_by assumption

def argumentsOfData? (ds : List Datum) : Option (List Argument) :=
  match ds with
  | [] => some []
  | d :: rest => do return (← Argument.ofDatum? .inner d) :: (← argumentsOfData? rest)
  termination_by sizeOf ds

end

def contentOfDatum? : Datum → Option (List Symbol)
  | list items => contentOfData? .outer items
  | _ => none

namespace Call

def toDatum (call : Call) : Datum :=
  record [("name", text call.function), ("args", list (argumentsToData call.arguments))]

def ofDatum? (d : Datum) : Option Call := do
  let fields ← d.record?
  return {
    function := ← required fields "name" word?
    arguments := ← orElse fields "args" (list? (Argument.ofDatum? .outer)) [] }

end Call

namespace Phrase

def toDatum (phrase : Phrase) : Datum :=
  record [("repeat", ofInt32 phrase.times), ("content", list (contentToData phrase.content))]

def ofDatum? (d : Datum) : Option Phrase := do
  let fields ← d.record?
  return {
    times := ← orElse fields "repeat" int32? (-1)
    content := ← orElse fields "content" contentOfDatum? [] }

end Phrase

namespace NamedPitch

def toDatum (p : NamedPitch) : Datum :=
  record <| ("name", text p.name) ::
    match p.voicing with
    | .fixed offsets => [("fixed", ofList ofInt32 offsets)]
    | .degrees steps => [("degrees", ofList (fun n : UInt8 ↦ ofNat n.toNat) steps)]

/-- Of degrees and fixed offsets written side by side those count that come first. -/
def ofDatum? (d : Datum) : Option NamedPitch := do
  let fields ← d.record?
  let name ← required fields "name" word?
  let (key, pitches) ← fields.find? fun field ↦ field.1 = "fixed" || field.1 = "degrees"
  if key = "fixed" then return { name, voicing := .fixed (← list? int32? pitches) }
  else return { name, voicing := .degrees (← list? uint8? pitches) }

end NamedPitch

namespace Instrument

def toDatum (instrument : Instrument) : Datum :=
  record
    [("name", text instrument.name), ("spec", list (contentToData instrument.opening)),
      ("dict", ofList NamedPitch.toDatum instrument.pitches)]

def ofDatum? (d : Datum) : Option Instrument := do
  let fields ← d.record?
  return {
    name := ← required fields "name" word?
    opening := ← orElse fields "spec" contentOfDatum? []
    pitches := ← orElse fields "dict" (list? NamedPitch.ofDatum?) [] }

end Instrument

namespace Track

def toDatum (track : Track) : Datum :=
  record
    [("id", text track.id), ("name", ofOption text track.name), ("play", bool track.plays),
      ("instruments", ofList Instrument.toDatum track.instruments),
      ("content", list (contentToData track.content))]

def ofDatum? (d : Datum) : Option Track := do
  let fields ← d.record?
  return {
    id := ← orElse fields "id" word? ""
    name := ← optional fields "name" word?
    plays := ← orElse fields "play" bool? true
    instruments := ← orElse fields "instruments" (list? Instrument.ofDatum?) []
    content := ← orElse fields "content" contentOfDatum? [] }

end Track

namespace Section

def toDatum (s : Section) : Datum :=
  record
    [("prolog", ofList Call.toDatum s.prolog), ("settings", ofList Call.toDatum s.settings),
      ("tracks", ofList Track.toDatum s.tracks)]

def ofDatum? (d : Datum) : Option Section := do
  let fields ← d.record?
  return {
    prolog := ← orElse fields "prolog" (list? Call.ofDatum?) []
    settings := ← orElse fields "settings" (list? Call.ofDatum?) []
    tracks := ← orElse fields "tracks" (list? Track.ofDatum?) [] }

end Section

namespace Score

def toDatum (score : Score) : Datum := record [("sections", ofList Section.toDatum score.sections)]

def ofDatum? (d : Datum) : Option Score := do
  let fields ← d.record?
  return { sections := ← orElse fields "sections" (list? Section.ofDatum?) [] }

end Score

end Rendition
