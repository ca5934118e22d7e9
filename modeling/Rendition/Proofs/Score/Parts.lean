import Rendition.Proofs.Play.Depth

namespace Rendition

mutual

/-- A symbol and all that lies in it, also in the arguments of calls. -/
def Symbol.parts : Symbol → List Symbol
  | .call name arguments => .call name arguments :: Symbol.argumentsParts arguments
  | .phrase times content => .phrase times content :: Symbol.contentParts content
  | symbol => [symbol]

def Argument.parts : Argument → List Symbol
  | .symbol value => value.parts
  | _ => []

def Symbol.contentParts : List Symbol → List Symbol
  | [] => []
  | s :: rest => s.parts ++ Symbol.contentParts rest

def Symbol.argumentsParts : List Argument → List Symbol
  | [] => []
  | a :: rest => a.parts ++ Symbol.argumentsParts rest

end

variable {P : Symbol → Prop}

namespace Symbol

theorem mem_parts_self (symbol : Symbol) : symbol ∈ symbol.parts := by
  cases symbol <;> exact List.mem_cons_self

/-- All that is written among the symbols has a property. -/
def Throughout (P : Symbol → Prop) (symbols : List Symbol) : Prop :=
  ∀ part ∈ contentParts symbols, P part

instance [DecidablePred P] (symbols : List Symbol) : Decidable (Throughout P symbols) :=
  inferInstanceAs (Decidable (∀ part ∈ contentParts symbols, P part))

theorem throughout_cons {symbol : Symbol} {rest : List Symbol} :
    Throughout P (symbol :: rest) ↔ (∀ part ∈ symbol.parts, P part) ∧ Throughout P rest := by
  rw [Throughout, contentParts]
  exact List.forall_mem_append

theorem throughout_iff {symbols : List Symbol} :
    Throughout P symbols ↔ ∀ symbol ∈ symbols, ∀ part ∈ symbol.parts, P part := by
  induction symbols with
  | nil => exact ⟨fun _ ↦ nofun, fun _ ↦ nofun⟩
  | cons symbol rest ih => rw [throughout_cons, ih, List.forall_mem_cons]

theorem throughout_append {symbols symbols' : List Symbol} :
    Throughout P (symbols ++ symbols') ↔ Throughout P symbols ∧ Throughout P symbols' := by
  simp only [throughout_iff, List.forall_mem_append]

theorem throughout_singleton {symbol : Symbol} : Throughout P [symbol] ↔ ∀ part ∈ symbol.parts,
    P part := by
  rw [throughout_iff, List.forall_mem_singleton]

theorem Throughout.mono {Q : Symbol → Prop} {symbols : List Symbol} (h : Throughout P symbols)
    (hPQ : ∀ symbol, P symbol → Q symbol) : Throughout Q symbols :=
  fun part hpart ↦ hPQ part (h part hpart)

theorem parts_argument {argument : Argument} {arguments : List Argument}
    (h : argument ∈ arguments) :
    argument.parts ⊆ argumentsParts arguments := by
  induction arguments with
  | nil => cases h
  | cons a rest ih =>
    rw [argumentsParts]
    cases h with
    | head => exact List.subset_append_left _ _
    | tail _ h => exact List.Subset.trans (ih h) (List.subset_append_right _ _)

theorem forall_mem_argumentsParts {arguments : List Argument} :
    (∀ part ∈ argumentsParts arguments, P part) ↔ ∀ argument ∈ arguments, ∀ part ∈ argument.parts,
    P part := by
  induction arguments with
  | nil => exact ⟨fun _ ↦ nofun, fun _ ↦ nofun⟩
  | cons a rest ih => rw [argumentsParts, List.forall_mem_append, ih, List.forall_mem_cons]

theorem throughout_phrase {times : Int32} {content : List Symbol}
    (h : ∀ part ∈ (phrase times content).parts, P part) :
    Throughout P content :=
  fun part hpart ↦ h part (List.mem_cons_of_mem _ hpart)

end Symbol

theorem Symbol.Throughout.unfold {content : List Symbol} (hbar : P Repetition.plainBar)
    (h : Throughout P content) (times : Int) :
    Throughout P (Repetition.unfold content times).1 := by
  rw [throughout_iff] at h ⊢
  intro symbol hs
  obtain hmem | rfl := Repetition.mem_unfold hs
  · exact h symbol hmem
  · exact List.forall_mem_singleton.mpr hbar

theorem Phrase.throughout_written {phrase : Phrase} (hbar : P Repetition.plainBar)
    (h : Symbol.Throughout P phrase.content) : Symbol.Throughout P phrase.written.1 := by
  unfold written
  split
  · exact h
  · exact h.unfold hbar _

namespace Value

theorem throughout_argument {argument : Argument} {value : Value} {phrase : Phrase}
    (ha : ofArgument argument = .ok value) (hp : value.phrase? = some phrase)
    (h : ∀ part ∈ argument.parts, P part) :
    Symbol.Throughout P phrase.content := by
  obtain ⟨symbol, rfl, hcontent | rfl⟩ := symbol_of_phrase? ha hp
  · rw [hcontent]
    exact Symbol.throughout_singleton.mpr h
  · exact Symbol.throughout_phrase h

theorem throughout_call {name : String} {arguments : List Argument} {values : List Value}
    (hv : arguments.mapM ofArgument = .ok values)
    (h : ∀ part ∈ (Symbol.call name arguments).parts, P part) {phrase : Phrase}
    (hp : phrase ∈ Script.phrasesOf values) : Symbol.Throughout P phrase.content := by
  obtain ⟨value, hmem, hphrase⟩ := List.mem_filterMap.mp hp
  obtain ⟨argument, harg, ha⟩ := mem_mapM hv hmem
  exact throughout_argument ha hphrase fun part hpart ↦
    h part (List.mem_cons_of_mem _ (Symbol.parts_argument harg hpart))

end Value

end Rendition
