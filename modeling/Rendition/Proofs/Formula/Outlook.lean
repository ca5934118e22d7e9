import Rendition.Proofs.Formula.Grammar

namespace Rendition.Formula

namespace Lexeme

def isAdditive : Lexeme → Bool
  | .plus | .minus => true
  | _ => false

def isMultiplicative : Lexeme → Bool
  | .times | .over => true
  | _ => false

def isOperator (lexeme : Lexeme) : Bool :=
  lexeme.isAdditive || lexeme.isMultiplicative || lexeme = power

end Lexeme

/-- The grammar of formulas without their values, so that it does not matter what is divided by
what. -/
inductive Formed : Part → List Lexeme → Prop
  | product {ls : List Lexeme} (h : Formed .product ls) : Formed .sum ls
  | add {ls ms : List Lexeme} {operator : Lexeme} (ho : operator.isAdditive) (h : Formed .sum ls)
      (h' : Formed .product ms) : Formed .sum (ls ++ operator :: ms)
  | negation {ls : List Lexeme} (h : Formed .negation ls) : Formed .product ls
  | multiply {ls ms : List Lexeme} {operator : Lexeme} (ho : operator.isMultiplicative)
      (h : Formed .product ls) (h' : Formed .negation ms) : Formed .product (ls ++ operator :: ms)
  | negative {ls : List Lexeme} (h : Formed .negation ls) : Formed .negation (.minus :: ls)
  | power {ls : List Lexeme} (h : Formed .power ls) : Formed .negation ls
  | primary {ls : List Lexeme} (h : Formed .primary ls) : Formed .power ls
  | raised {ls ms : List Lexeme} (h : Formed .primary ls) (h' : Formed .negation ms) :
      Formed .power (ls ++ .power :: ms)
  | number (a : Float) : Formed .primary [.number a]
  | parenthesis {ls : List Lexeme} (h : Formed .sum ls) :
      Formed .primary (.opening :: (ls ++ [.closing]))
  | logarithm {ls : List Lexeme} {text : String} (ht : text.toLower = "log2") (h : Formed .sum ls) :
      Formed .primary (.name text :: .opening :: (ls ++ [.closing]))

/-- Whether lexemes begin some formula. -/
def Viable (lexemes : List Lexeme) : Prop := ∃ more, Formed .sum (lexemes ++ more)

/-- What is to come next in a formula that is read from the left, and how many parentheses are open.
The opening one is that of a logarithm. -/
inductive Outlook where
  | operand (depth : Nat)
  | opening (depth : Nat)
  | operator (depth : Nat)
  deriving DecidableEq, Repr

namespace Outlook

def step : Outlook → Lexeme → Option Outlook
  | operand depth, .number _ => some (operator depth)
  | operand depth, .minus => some (operand depth)
  | operand depth, .name text => if text.toLower = "log2" then some (opening depth) else none
  | operand depth, .opening | opening depth, .opening => some (operand (depth + 1))
  | operator (depth + 1), .closing => some (operator depth)
  | operator depth, lexeme => if lexeme.isOperator then some (operand depth) else none
  | _, _ => none

def run (outlook : Outlook) (lexemes : List Lexeme) : Option Outlook := lexemes.foldlM step outlook

variable {outlook next : Outlook} {lexeme operator : Lexeme} {ls ms : List Lexeme}

theorem run_append (outlook : Outlook) (ls ms : List Lexeme) :
    outlook.run (ls ++ ms) = (outlook.run ls).bind (·.run ms) := List.foldlM_append

theorem run_cons (outlook : Outlook) (lexeme : Lexeme) (ls : List Lexeme) :
    outlook.run (lexeme :: ls) = (outlook.step lexeme).bind (·.run ls) := List.foldlM_cons

theorem step_operator (ho : operator.isOperator) (depth : Nat) :
    (Outlook.operator depth).step operator = some (operand depth) := by
  cases operator with
  | number | name | opening | closing => cases ho
  | _ => cases depth <;> rfl

section Formed

variable {depth : Nat}

theorem run_operator (ho : operator.isOperator)
    (h : (operand depth).run ls = some (.operator depth))
    (h' : (operand depth).run ms = some (.operator depth)) :
    (operand depth).run (ls ++ operator :: ms) = some (.operator depth) := by
  rw [run_append, h, Option.bind_some, run_cons, step_operator ho, Option.bind_some, h']

theorem run_closing (h : (operand (depth + 1)).run ls = some (.operator (depth + 1))) :
    (operand (depth + 1)).run (ls ++ [.closing]) = some (.operator depth) := by
  rw [run_append, h]
  rfl

theorem run_of_formed {part : Part} (h : Formed part ls) (depth : Nat) :
    (operand depth).run ls = some (.operator depth) := by
  induction h generalizing depth with
  | product _ ih | negation _ ih | power _ ih | primary _ ih => exact ih depth
  | add ho _ _ ih ih' => exact run_operator (by simp [Lexeme.isOperator, ho]) (ih depth) (ih' depth)
  | multiply ho _ _ ih ih' =>
    exact run_operator (by simp [Lexeme.isOperator, ho]) (ih depth) (ih' depth)
  | raised _ _ ih ih' => exact run_operator rfl (ih depth) (ih' depth)
  | negative _ ih => exact ih depth
  | number a => rfl
  | parenthesis _ ih => exact run_closing (ih (depth + 1))
  | logarithm ht _ ih =>
    rw [run_cons, step, if_pos ht]
    exact run_closing (ih (depth + 1))

end Formed

end Outlook

namespace Formed

variable {part : Part} {operator : Lexeme} {ls ms : List Lexeme}

theorem raise (h : Formed part ls) (hpart : part ≠ .primary) (h' : Formed .negation ms) :
    Formed part (ls ++ .power :: ms) := by
  induction h with
  | product _ ih => exact .product (ih nofun)
  | negation _ ih => exact .negation (ih nofun)
  | power _ ih => exact .power (ih nofun)
  | negative _ ih => exact .negative (ih nofun)
  | primary h => exact .raised h h'
  | add ho h _ _ ih => simpa using Formed.add ho h (ih nofun)
  | multiply ho h _ _ ih => simpa using Formed.multiply ho h (ih nofun)
  | raised h _ _ ih => simpa using Formed.raised h (ih nofun)
  | number | parenthesis | logarithm => exact absurd rfl hpart

theorem extend (h : Formed .sum ls) (ho : operator.isOperator) (h' : Formed .negation ms) :
    Formed .sum (ls ++ operator :: ms) := by
  cases operator with
  | plus | minus => exact .add rfl h (.negation h')
  | power => exact h.raise nofun h'
  | number | name | opening | closing => cases ho
  | _ =>
    cases h with
    | product h => exact .product (.multiply rfl h h')
    | add ho h hlast => simpa using Formed.add ho h (.multiply rfl hlast h')

end Formed

/-- Lexemes that end with an operand, as many parentheses open as told, and become a formula
once these are closed. -/
def Complete : (depth : Nat) → List Lexeme → Prop
  | 0, ls => Formed .sum ls
  | depth + 1, ls => ∃ front inner, ls = front ++ .opening :: inner ∧ Formed .sum inner ∧
      ∀ ms, Formed .sum ms → Complete depth (front ++ .opening :: (ms ++ [.closing]))

namespace Complete

variable {depth : Nat} {operator : Lexeme} {ls ms : List Lexeme}

theorem extend (h : Complete depth ls) (ho : operator.isOperator) (h' : Formed .negation ms) :
    Complete depth (ls ++ operator :: ms) := by
  cases depth with
  | zero => exact Formed.extend h ho h'
  | succ depth =>
    obtain ⟨front, inner, rfl, hinner, hclosed⟩ := h
    exact ⟨front, inner ++ operator :: ms, by simp, hinner.extend ho h', hclosed⟩

theorem close (h : Complete (depth + 1) ls) : Complete depth (ls ++ [.closing]) := by
  obtain ⟨front, inner, rfl, hinner, hclosed⟩ := h
  simpa using hclosed inner hinner

theorem viable (h : Complete depth ls) : Viable ls := by
  induction depth generalizing ls with
  | zero =>
    refine ⟨[], ?_⟩
    rw [List.append_nil]
    exact h
  | succ depth ih =>
    obtain ⟨more, hmore⟩ := ih h.close
    exact ⟨.closing :: more, by simpa using hmore⟩

end Complete

namespace Outlook

def Promises : Outlook → List Lexeme → Prop
  | operand depth, ls => ∀ ms, Formed .negation ms → Complete depth (ls ++ ms)
  | opening depth, ls =>
    ∀ ms, Formed .sum ms → Complete depth (ls ++ .opening :: (ms ++ [.closing]))
  | operator depth, ls => Complete depth ls

variable {outlook next : Outlook} {depth : Nat} {lexeme : Lexeme} {ls ms : List Lexeme}

theorem promises_parenthesis
    (h : ∀ ms, Formed .sum ms → Complete depth (ls ++ .opening :: (ms ++ [.closing]))) :
    (operand (depth + 1)).Promises (ls ++ [.opening]) :=
  fun ms hms ↦ ⟨ls, ms, by simp, .product (.negation hms), h⟩

theorem Promises.step (h : outlook.Promises ls) (hstep : outlook.step lexeme = some next) :
    next.Promises (ls ++ [lexeme]) := by
  cases outlook with
  | operand depth =>
    cases lexeme with
    | number a =>
      cases hstep
      exact h _ (.power (.primary (.number a)))
    | minus =>
      cases hstep
      intro ms hms
      simpa using h _ (.negative hms)
    | opening =>
      cases hstep
      exact promises_parenthesis fun ms hms ↦ h _ (.power (.primary (.parenthesis hms)))
    | name text =>
      rw [Outlook.step, Option.ite_none_right_eq_some] at hstep
      obtain ⟨ht, hnext⟩ := hstep
      cases hnext
      intro ms hms
      simpa using h _ (.power (.primary (.logarithm ht hms)))
    | _ => cases hstep
  | opening depth =>
    cases lexeme with
    | opening =>
      cases hstep
      exact promises_parenthesis h
    | _ => cases hstep
  | operator depth =>
    by_cases ho : lexeme.isOperator
    · cases (step_operator ho depth).symm.trans hstep
      intro ms hms
      simpa using Complete.extend h ho hms
    · cases lexeme with
      | closing =>
        cases depth with
        | zero => cases hstep
        | succ depth =>
          cases hstep
          exact Complete.close h
      | number | name | opening => cases depth <;> cases hstep
      | _ => exact absurd rfl ho

theorem Promises.run (h : outlook.Promises ls) (hrun : outlook.run ms = some next) :
    next.Promises (ls ++ ms) := by
  induction ms generalizing outlook ls with
  | nil =>
    cases hrun
    rw [List.append_nil]
    exact h
  | cons lexeme ms ih =>
    rw [run_cons, Option.bind_eq_some_iff] at hrun
    obtain ⟨mid, hstep, hrun⟩ := hrun
    rw [List.append_cons]
    exact ih (h.step hstep) hrun

theorem Promises.viable (h : outlook.Promises ls) : Viable ls := by
  have hone : Formed .negation [.number 1] := .power (.primary (.number 1))
  cases outlook with
  | operand depth =>
    obtain ⟨more, hmore⟩ := (h _ hone).viable
    exact ⟨_, by simpa using hmore⟩
  | opening depth =>
    obtain ⟨more, hmore⟩ := (h _ (.product (.negation hone))).viable
    exact ⟨_, by simpa using hmore⟩
  | operator depth => exact Complete.viable h

theorem promises_nil : (operand 0).Promises [] := fun _ hms ↦ .product (.negation hms)

end Outlook

theorem formed_iff_run {ls : List Lexeme} :
    Formed .sum ls ↔ (Outlook.operand 0).run ls = some (.operator 0) :=
  ⟨fun h ↦ Outlook.run_of_formed h 0, fun h ↦ Outlook.promises_nil.run h⟩

theorem viable_iff_run {ls : List Lexeme} : Viable ls ↔ ∃ outlook, (Outlook.operand 0).run ls =
    some outlook := by
  constructor
  · rintro ⟨more, h⟩
    have hrun := formed_iff_run.mp h
    rw [Outlook.run_append, Option.bind_eq_some_iff] at hrun
    obtain ⟨outlook, hrun, -⟩ := hrun
    exact ⟨outlook, hrun⟩
  · rintro ⟨outlook, hrun⟩
    exact (Outlook.promises_nil.run hrun).viable

end Rendition.Formula
