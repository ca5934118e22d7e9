import Mathlib.Logic.Relation
import Rendition.Proofs.Play.Keeping

namespace Rendition

/-- What is to be done next in a passage: symbols to be played, or the body of a
function to be answered. -/
inductive Task where
  | symbols (index : Nat) (symbols : List Symbol)
  | script (name : String) (access : Access) (script : Script (Option Passage))

structure Moment where
  /-- How many passages may still lie inside one another. -/
  depth : Nat
  /-- The passages around, innermost first, each as it was when it went into the next. -/
  around : List Scope
  scope : Scope
  session : Session
  task : Task

namespace Moment

variable (stage : Stage)

/-- One moment follows another: the next symbol of a passage, the next request of a function, or the
first symbol of an inner passage. -/
inductive Next : Moment → Moment → Prop
  | past {depth around scope scope' s s' index symbol rest}
      (h : outcome ((scope.atIndex index).playSymbol stage (playerOf stage depth) symbol) s =
        some (.ok scope', s')) :
      Next ⟨depth, around, scope, s, .symbols index (symbol :: rest)⟩
        ⟨depth, around, scope', s', .symbols (index + 1) rest⟩
  | phrase {depth around scope s index rest} (times : Int32) (content : List Symbol) :
      Next ⟨depth + 1, around, scope, s, .symbols index (.phrase times content :: rest)⟩
        ⟨depth, scope.atIndex index :: around,
          .begin stage s scope.settings (Repetition.unfold content times.toInt).2, s,
          .symbols 0 (Repetition.unfold content times.toInt).1⟩
  | theme {depth around scope s index rest}
      (name : String) (content : List Symbol)
      (hc : stage.repertoire.themes.find? name = some content)
      (ha : name ∉ s.active) :
      Next ⟨depth + 1, around, scope, s, .symbols index (.theme name :: rest)⟩
        ⟨depth, scope.atIndex index :: around,
          .begin stage (s.entering name) scope.settings (Repetition.unfold content (-1)).2,
          s.entering name, .symbols 0 (Repetition.unfold content (-1)).1⟩
  | call {depth around scope s index rest}
      (name : String) (arguments : List Argument) (function : Function) (values : List Value)
      (hf : stage.repertoire.functions.find? name = some function)
      (hv : arguments.mapM Value.ofArgument = .ok values) :
      Next ⟨depth, around, scope, s, .symbols index (.call name arguments :: rest)⟩
        ⟨depth, around, scope.atIndex index, s,
          .script name function.access (function.body name values)⟩
  | play {depth around scope s name access} (phrase : Phrase) (overrides : Overrides)
      (inner : Access) (next : Except Fault Passage → Script (Option Passage)) :
      Next ⟨depth + 1, around, scope, s, .script name access (.play phrase overrides inner next)⟩
        ⟨depth, scope :: around,
          .begin stage (inner.lend s) (scope.settings.override overrides) phrase.written.2,
          inner.lend s, .symbols 0 phrase.written.1⟩
  | played {depth around scope s s' name access phrase overrides inner r}
      (next : Except Fault Passage → Script (Option Passage))
      (h : (scope.playPhrase (playerOf stage depth) phrase overrides inner).run s = some (r, s')) :
      Next ⟨depth, around, scope, s, .script name access (.play phrase overrides inner next)⟩
        ⟨depth, around, scope, s', .script name access (next r)⟩
  | joined {depth around scope s name access}
      (passages : List Passage) (next : Passage → Script (Option Passage)) :
      Next ⟨depth, around, scope, s, .script name access (.join passages next)⟩
        ⟨depth, around, scope, (scope.join stage passages s).2,
          .script name access (next (scope.join stage passages s).1)⟩
  | remarked {depth around scope s name access} (message : String)
      (next : Script (Option Passage)) :
      Next ⟨depth, around, scope, s, .script name access (.remark message next)⟩
        ⟨depth, around, scope.remark (.function name message), s, .script name access next⟩
  | settings {depth around scope s name access} (next : Settings → Script (Option Passage)) :
      Next ⟨depth, around, scope, s, .script name access (.settings next)⟩
        ⟨depth, around, scope, s, .script name access (next scope.settings)⟩
  | set {depth around scope s name access} (settings : Settings) (next : Script (Option Passage)) :
      Next ⟨depth, around, scope, s, .script name access (.setSettings settings next)⟩
        ⟨depth, around, { scope with settings }, s, .script name access next⟩
  | trace {depth around scope s name access} (next : Option Trace → Script (Option Passage)) :
      Next ⟨depth, around, scope, s, .script name access (.trace next)⟩
        ⟨depth, around, scope, s,
          .script name access (next (if access.reads then some s.trace else none))⟩
  | record {depth around scope s name access} (entry : List Tone)
      (next : Bool → Script (Option Passage)) :
      Next ⟨depth, around, scope, s, .script name access (.record entry next)⟩
        ⟨depth, around, scope, if access.writes then { s with trace := s.trace ++ [entry] } else s,
          .script name access (next access.writes)⟩
  | progress {depth around scope s name access} (next : Progress → Script (Option Passage)) :
      Next ⟨depth, around, scope, s, .script name access (.progress next)⟩
        ⟨depth, around, scope, s, .script name access (next scope.progress)⟩

/-- A moment comes up in the run that goes on from another. -/
abbrev Reached : Moment → Moment → Prop := Relation.ReflTransGen (Next stage)

variable {stage} in
theorem Next.grows {m m' : Moment} (h : Next stage m m') : m.session.Grows m'.session := by
  have hkept : Session.Kept stage Session.Grows := Session.kept_grows
  cases h with
  | past h => exact hkept.step (hkept.playerOf _) (Scope.step_of_outcome h)
  | phrase | theme | call | remarked | settings | set | trace | progress => exact .of_eq rfl rfl
  | play phrase overrides inner next =>
    exact .of_eq (by rw [inner.lend_events]) (inner.lend_pending _)
  | played next h => exact (hkept.playerOf _).playPhrase hkept.reclaim h
  | joined passages next => exact hkept.join stage _ _ passages
  | @record depth around scope s name access entry next =>
    dsimp only
    split <;> exact .of_eq rfl rfl

variable {stage} in
theorem reached_grows {m m' : Moment} (h : Reached stage m m') : m.session.Grows m'.session := by
  induction h with
  | refl => exact .of_eq rfl rfl
  | tail _ hnext ih => exact ih.trans hnext.grows

theorem past_symbols {R : Moment → Moment → Prop}
    {depth index : Nat} {around : List Scope} {scope scope' : Scope} {s s' : Session}
    {xs : List Symbol}
    (hpast : ∀ (index : Nat) (scope scope' : Scope) (s s' : Session) (symbol : Symbol)
      (rest : List Symbol),
      outcome ((scope.atIndex index).playSymbol stage (playerOf stage depth) symbol) s =
        some (.ok scope', s') →
      R ⟨depth, around, scope, s, .symbols index (symbol :: rest)⟩
        ⟨depth, around, scope', s', .symbols (index + 1) rest⟩)
    (ys : List Symbol)
    (h : outcome (scope.playFrom stage (playerOf stage depth) index xs) s = some (.ok scope', s')) :
    Relation.ReflTransGen R ⟨depth, around, scope, s, .symbols index (xs ++ ys)⟩
      ⟨depth, around, scope', s', .symbols (index + xs.length) ys⟩ := by
  induction xs generalizing index scope s with
  | nil =>
    cases h
    exact .refl
  | cons x xs ih =>
    rw [Scope.outcome_playFrom_cons, andThen_eq_ok] at h
    obtain ⟨scope₁, s₁, hx, hxs⟩ := h
    have hrest := ih hxs
    rw [Nat.add_assoc, Nat.add_comm 1] at hrest
    exact .head (hpast _ _ _ _ _ _ _ hx) hrest

theorem reached_past {depth index : Nat} {around : List Scope} {scope scope' : Scope}
    {s s' : Session} {xs : List Symbol} (ys : List Symbol)
    (h : outcome (scope.playFrom stage (playerOf stage depth) index xs) s = some (.ok scope', s')) :
    Reached stage ⟨depth, around, scope, s, .symbols index (xs ++ ys)⟩
      ⟨depth, around, scope', s', .symbols (index + xs.length) ys⟩ :=
  past_symbols stage (fun _ _ _ _ _ _ _ ↦ .past) ys h

def start (settings : Settings) (symbols : List Symbol) (s : Session) : Moment where
  depth := stage.repertoire.depthOf symbols
  around := []
  scope := .enter stage settings s false
  session := s
  task := .symbols 0 symbols

/-- The moment is that of a note, which starts `e` and keeps it at the given place. -/
def Starts (m : Moment) (id : Nat) (e : Event) : Prop :=
  ∃ index note rest k, m.task = .symbols index (.note note :: rest) ∧
    id = m.session.events.size + k ∧
    (note.fresh stage m.scope.settings m.session m.scope.progress)[k]? = some e

end Moment

end Rendition
