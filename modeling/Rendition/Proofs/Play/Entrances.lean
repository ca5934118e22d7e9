import Rendition.Proofs.Play.Interlude
import Rendition.Proofs.Play.Moment

namespace Rendition

/-- A note of a run, with the passages around it, innermost first, and the scope and the
session that it finds. -/
structure Entrance where
  around : List Scope
  scope : Scope
  session : Session
  note : Note

/-- The notes of an inner passage, given the passages around it and how it begins. -/
abbrev Listing := List Scope → Settings → List Remark → List Symbol → Session → List Entrance

section

variable (stage : Stage) (player : Player) (inner : Listing) (around : List Scope)

def Interlude.notes (i : Interlude) : List Entrance :=
  inner (i.scope :: around) (i.scope.settings.override i.overrides) i.phrase.written.2
    i.phrase.written.1 (i.access.lend i.session)

namespace Scope

def repeatedNotes (content : List Symbol) (times : Int) (scope : Scope) (s : Session) :
    List Entrance :=
  inner (scope :: around) scope.settings (Repetition.unfold content times).2
    (Repetition.unfold content times).1 s

def symbolNotes (scope : Scope) (s : Session) : Symbol → List Entrance
  | .note note => [⟨around, scope, s, note⟩]
  | .call name arguments =>
    (scope.interludes stage player name arguments s).flatMap (·.notes inner around)
  | .phrase times content => scope.repeatedNotes inner around content times.toInt s
  | .theme name =>
    match stage.repertoire.themes.find? name with
    | none => []
    | some content =>
      if name ∈ s.active then [] else scope.repeatedNotes inner around content (-1)
        (s.entering name)
  | .tie | .barLine _ | .marking _ | .clef _ | .comment _ | .space => []

def notesFrom : (index : Nat) → List Symbol → Scope → Session → List Entrance
  | _, [], _, _ => []
  | index, symbol :: rest, scope, s =>
    (scope.atIndex index).symbolNotes stage player inner around s symbol ++
      match outcome ((scope.atIndex index).playSymbol stage player symbol) s with
      | some (.ok scope', s') => notesFrom (index + 1) rest scope' s'
      | _ => []

end Scope

end

/-- The notes of passages that lie at most `depth` deep inside one another, in the order in
which they are played. -/
def notesOf (stage : Stage) : (depth : Nat) → Listing
  | 0 => fun _ _ _ _ _ ↦ []
  | depth + 1 => fun around settings remarks symbols s ↦
    (Scope.begin stage s settings remarks).notesFrom stage (playerOf stage depth)
      (notesOf stage depth) around 0 symbols s

namespace Moment

variable {stage : Stage} {m m' : Moment}

/-- The notes of what is to be done at a moment. -/
def notes (stage : Stage) (m : Moment) : List Entrance :=
  match m.task with
  | .symbols index symbols =>
    m.scope.notesFrom stage (playerOf stage m.depth) (notesOf stage m.depth) m.around index
      symbols m.session
  | .script name access script =>
    (m.scope.interludesOf stage (playerOf stage m.depth) name access script m.session).flatMap
      (·.notes (notesOf stage m.depth) m.around)

theorem Next.notes_subset (h : Next stage m m') : m'.notes stage ⊆ m.notes stage := by
  cases h with
  | past h =>
    simp only [notes, Scope.notesFrom, h]
    exact List.subset_append_right _ _
  | phrase times content =>
    simp only [notes]
    rw [Scope.notesFrom]
    exact List.subset_append_left _ _
  | theme name content hc ha =>
    simp only [notes]
    rw [Scope.notesFrom, Scope.symbolNotes, hc]
    simp only [if_neg ha]
    exact List.subset_append_left _ _
  | call name arguments function values hf hv =>
    simp only [notes]
    rw [Scope.notesFrom, Scope.symbolNotes, Scope.interludes_eq _ _ hf hv]
    exact List.subset_append_left _ _
  | play phrase overrides inner next =>
    simp only [notes]
    rw [Scope.interludesOf, List.flatMap_cons]
    exact List.subset_append_left _ _
  | @played depth around scope s s' name access phrase overrides inner r next h =>
    have hrun : Interlude.run (playerOf stage depth) ⟨scope, s, phrase, overrides, inner⟩ =
        some (r, s') := h
    simp only [notes]
    rw [Scope.interludesOf, List.flatMap_cons, hrun]
    exact List.subset_append_right _ _
  | joined | remarked | settings | set | trace | record | progress => exact List.Subset.refl _

theorem notes_subset_of_reached (h : Reached stage m m') : m'.notes stage ⊆ m.notes stage := by
  induction h with
  | refl => exact List.Subset.refl _
  | tail _ hnext ih => exact fun _ he ↦ ih (hnext.notes_subset he)

inductive Enters : Moment → Entrance → Prop
  | intro (depth : Nat) (around : List Scope) (scope : Scope) (s : Session) (index : Nat)
      (note : Note) (rest : List Symbol) :
      Enters ⟨depth, around, scope, s, .symbols index (.note note :: rest)⟩ ⟨around,
        scope.atIndex index, s, note⟩

theorem Enters.mem_notes {e : Entrance} (he : m'.Enters e) (h : Reached stage m m') :
    e ∈ m.notes stage := by
  obtain ⟨depth, around, scope, s, index, note, rest⟩ := he
  exact notes_subset_of_reached h (List.mem_append_left _ List.mem_cons_self)

end Moment

end Rendition
