import Rendition.Format.Datum

namespace Rendition

/-- Where in a document something is written: outside symbols, or as part of one. -/
inductive Layer where
  | outer
  | inner
  deriving DecidableEq, Repr

namespace Layer

open Datum

def text? : Layer → Datum → Option String
  | outer => word?
  | inner => Datum.text?

/-- One of some names. As part of a symbol it may also be given by its place among them. -/
def name? : Layer → (names : List String) → Datum → Option String
  | _, _, Datum.text name => some name
  | inner, names, integer n => if 0 ≤ n then names[n.toNat]? else none
  | _, _, _ => none

abbrev FieldsOf (d : Datum) :=
  { fields : List (String × Datum) // ∀ v ∈ fields.map Prod.snd, sizeOf v < sizeOf d }

def part? {d : Datum} (name : String) (fields : FieldsOf d) :
    Option { v : Datum // sizeOf v < sizeOf d } :=
  (find name fields.1).map fun ⟨v, h⟩ ↦ ⟨v, fields.2 v h⟩

theorem sizeOf_lt_of_mem_record {fields : List (String × Datum)} {v : Datum}
    (h : v ∈ fields.map Prod.snd) :
    sizeOf v < sizeOf (record fields) := by
  obtain ⟨⟨n, _⟩, hm, rfl⟩ := List.mem_map.mp h
  have := List.sizeOf_lt_of_mem hm
  simp only [Prod.mk.sizeOf_spec, record.sizeOf_spec] at this ⊢
  omega

theorem mem_of_mem_zip {names : List String} {items : List Datum} {v : Datum}
    (h : v ∈ (names.zip items).map Prod.snd) : v ∈ items := by
  obtain ⟨⟨n, _⟩, hm, rfl⟩ := List.mem_map.mp h
  exact (List.of_mem_zip hm).2

theorem sizeOf_lt_of_mem_list {items : List Datum} {v : Datum} (h : v ∈ items) :
    sizeOf v < sizeOf (list items) := by
  have := List.sizeOf_lt_of_mem h
  simp only [list.sizeOf_spec]
  omega

/-- The fields of a record. As part of a symbol a record may also be a list of the values of its
first fields, in the order of their names. -/
def fields? (layer : Layer) (names : List String) : (d : Datum) → Option (FieldsOf d)
  | record fields => some ⟨fields, fun _ ↦ sizeOf_lt_of_mem_record⟩
  | list items =>
    if layer = inner ∧ items.length ≤ names.length then
      some ⟨names.zip items, fun _ h ↦ sizeOf_lt_of_mem_list (mem_of_mem_zip h)⟩
    else none
  | _ => none

end Layer

end Rendition
