import Rendition.Proofs.Play.Outcome
import Rendition.Score.Document

namespace Rendition

namespace Table

variable {κ α β : Type} [DecidableEq κ]

def map (g : α → β) (t : Table κ α) : Table κ β := ⟨t.entries.map fun e ↦ (e.1, g e.2)⟩

theorem find?_map (g : α → β) (t : Table κ α) (k : κ) : (t.map g).find? k = (t.find? k).map g := by
  have hlookup (entries : List (κ × α)) :
      lookup k (entries.map fun e ↦ (e.1, g e.2)) = (lookup k entries).map g := by
    induction entries with
    | nil => rfl
    | cons e rest ih =>
      rw [List.map_cons, lookup, lookup]
      split
      · rfl
      · exact ih
  exact hlookup t.entries

theorem insert_map (g : α → β) (t : Table κ α) (k : κ) (v : α) :
    (t.map g).insert k (g v) = (t.insert k v).map g := by
  have hput (entries : List (κ × α)) :
      put k (g v) (entries.map fun e ↦ (e.1, g e.2)) = (put k v entries).map fun e ↦
      (e.1, g e.2) := by
    induction entries with
    | nil => rfl
    | cons e rest ih =>
      rw [List.map_cons, put, put]
      split
      · rfl
      · rw [List.map_cons, ih]
  exact congrArg mk (hput t.entries)

end Table

section Edited

variable (edit : List Symbol → List Symbol)

mutual

/-- A symbol with every list of symbols in it edited, the innermost first. -/
def Symbol.edited : Symbol → Symbol
  | .call name arguments => .call name (Symbol.argumentsEdited arguments)
  | .phrase times content => .phrase times (edit (Symbol.contentEdited content))
  | symbol => symbol

def Argument.edited : Argument → Argument
  | .symbol value => .symbol value.edited
  | argument => argument

def Symbol.contentEdited : List Symbol → List Symbol
  | [] => []
  | s :: rest => s.edited :: Symbol.contentEdited rest

def Symbol.argumentsEdited : List Argument → List Argument
  | [] => []
  | a :: rest => a.edited :: Symbol.argumentsEdited rest

end

def Symbol.editAll (symbols : List Symbol) : List Symbol := edit (Symbol.contentEdited edit symbols)

def Repertoire.edited (r : Repertoire) : Repertoire :=
  { r with themes := r.themes.map (Symbol.editAll edit) }

def Instrument.edited (instrument : Instrument) : Instrument :=
  { instrument with opening := Symbol.editAll edit instrument.opening }

abbrev Stage.edited (stage : Stage) : Stage :=
  { stage with repertoire := stage.repertoire.edited edit }

theorem Repertoire.find?_edited (r : Repertoire) (name : String) :
    (r.edited edit).themes.find? name = (r.themes.find? name).map (Symbol.editAll edit) :=
  Table.find?_map _ _ _

end Edited

namespace Symbol

def isPlainBar : Symbol → Bool
  | .barLine bar => bar = {}
  | _ => false

theorem eq_plainBar {symbol : Symbol} (h : symbol.isPlainBar) : symbol = Repetition.plainBar := by
  cases symbol with
  | barLine bar => exact congrArg Symbol.barLine (of_decide_eq_true h)
  | note | call | phrase | theme | tie | clef | comment | space | marking => cases h

def unbarred (symbols : List Symbol) : List Symbol := symbols.filter (!·.isPlainBar)

/-- The symbols without the bar lines that have no flag and directly follow a bar line, where
`after` tells whether the first of them does. -/
def singleBars : (after : Bool) → List Symbol → List Symbol
  | _, [] => []
  | after, symbol :: rest =>
    if after && symbol.isPlainBar then singleBars true rest
    else symbol :: singleBars symbol.isBarLine rest

/-- The symbols without those that do nothing, and without the bar lines that then do nothing. -/
def tidied (symbols : List Symbol) : List Symbol := singleBars false (symbols.filter (!·.isInert))

variable (edit : List Symbol → List Symbol) (symbol : Symbol)

@[simp] theorem edited_theme (name : String) : (theme name).edited edit = theme name := rfl

@[simp] theorem isBarLine_edited : (symbol.edited edit).isBarLine = symbol.isBarLine := by
  cases symbol <;> rfl

@[simp] theorem isPlainBar_edited : (symbol.edited edit).isPlainBar = symbol.isPlainBar := by
  cases symbol <;> rfl

@[simp] theorem isInert_edited : (symbol.edited edit).isInert = symbol.isInert := by
  cases symbol <;> rfl

@[simp] theorem isCoda_edited : (symbol.edited edit).isCoda = symbol.isCoda := by
  cases symbol <;> rfl

theorem edited_of_isBarLine {symbol : Symbol} (h : symbol.isBarLine) :
    symbol.edited edit = symbol := by
  cases symbol with
  | barLine bar => rfl
  | note | call | phrase | theme | tie | clef | comment | space | marking => cases h

end Symbol

end Rendition
