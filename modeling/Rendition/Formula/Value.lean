import Rendition.Formula.Lexeme

namespace Rendition.Formula

/-- A value read off the front of the lexemes, with those left over, of which there are fewer. -/
abbrev Reading (ls : List Located) :=
  Except Fault (Float × { rest : List Located // rest.length < ls.length })

abbrev Continuation (ls : List Located) :=
  Except Fault (Float × { rest : List Located // rest.length ≤ ls.length })

def expect (lexeme : Lexeme) : (ls : List Located) →
    Except Fault { rest : List Located // rest.length < ls.length }
  | [] => .error .unexpectedEnd
  | l :: rest =>
    if l.lexeme = lexeme then .ok ⟨rest, Nat.lt_succ_self _⟩
    else .error (.unexpectedLexeme l.offset)

mutual

def sum (ls : List Located) : Reading ls := do
  let (value, ⟨rest, h⟩) ← product ls
  let (value, ⟨rest, h'⟩) ← sumFrom value rest
  return (value, ⟨rest, by omega⟩)
  termination_by (ls.length, 5)

def sumFrom (value : Float) (ls : List Located) : Continuation ls :=
  match ls with
  | ⟨.plus, _⟩ :: tail => do
    let (summand, ⟨rest, h⟩) ← product tail
    let (value, ⟨rest, h'⟩) ← sumFrom (value + summand) rest
    return (value, ⟨rest, by simp only [List.length_cons]; omega⟩)
  | ⟨.minus, _⟩ :: tail => do
    let (summand, ⟨rest, h⟩) ← product tail
    let (value, ⟨rest, h'⟩) ← sumFrom (value - summand) rest
    return (value, ⟨rest, by simp only [List.length_cons]; omega⟩)
  | ls => return (value, ⟨ls, Nat.le_refl _⟩)
  termination_by (ls.length, 0)

def product (ls : List Located) : Reading ls := do
  let (value, ⟨rest, h⟩) ← negation ls
  let (value, ⟨rest, h'⟩) ← productFrom value rest
  return (value, ⟨rest, by omega⟩)
  termination_by (ls.length, 4)

def productFrom (value : Float) (ls : List Located) : Continuation ls :=
  match ls with
  | ⟨.times, _⟩ :: tail => do
    let (factor, ⟨rest, h⟩) ← negation tail
    let (value, ⟨rest, h'⟩) ← productFrom (value * factor) rest
    return (value, ⟨rest, by simp only [List.length_cons]; omega⟩)
  | ⟨.over, _⟩ :: tail => do
    let (divisor, ⟨rest, h⟩) ← negation tail
    if divisor == 0 then throw .divisionByZero
    let (value, ⟨rest, h'⟩) ← productFrom (value / divisor) rest
    return (value, ⟨rest, by simp only [List.length_cons]; omega⟩)
  | ls => return (value, ⟨ls, Nat.le_refl _⟩)
  termination_by (ls.length, 0)

def negation (ls : List Located) : Reading ls :=
  match ls with
  | ⟨.minus, _⟩ :: tail => do
    let (value, ⟨rest, h⟩) ← negation tail
    return (-value, ⟨rest, by simp only [List.length_cons]; omega⟩)
  | ls => power ls
  termination_by (ls.length, 3)

def power (ls : List Located) : Reading ls := do
  let (base, ⟨rest, h⟩) ← primary ls
  let (value, ⟨rest, h'⟩) ← powerFrom base rest
  return (value, ⟨rest, by omega⟩)
  termination_by (ls.length, 2)

def powerFrom (base : Float) (ls : List Located) : Continuation ls :=
  match ls with
  | ⟨.power, _⟩ :: tail => do
    let (exponent, ⟨rest, h⟩) ← negation tail
    return (base.pow exponent, ⟨rest, by simp only [List.length_cons]; omega⟩)
  | ls => return (base, ⟨ls, Nat.le_refl _⟩)
  termination_by (ls.length, 0)

def primary (ls : List Located) : Reading ls :=
  match ls with
  | [] => throw .unexpectedEnd
  | ⟨.number value, _⟩ :: tail => return (value, ⟨tail, Nat.lt_succ_self _⟩)
  | ⟨.opening, _⟩ :: tail => do
    let (value, ⟨rest, h⟩) ← sum tail
    let ⟨rest, h'⟩ ← expect .closing rest
    return (value, ⟨rest, by simp only [List.length_cons]; omega⟩)
  | ⟨.name text, _⟩ :: tail => do
    if text.toLower ≠ "log2" then throw (.unknownFunction text)
    let ⟨rest, h⟩ ← expect .opening tail
    let (value, ⟨rest, h'⟩) ← sum rest
    let ⟨rest, h''⟩ ← expect .closing rest
    return (value.log2, ⟨rest, by simp only [List.length_cons]; omega⟩)
  | l :: _ => throw (.unexpectedLexeme l.offset)
  termination_by (ls.length, 1)

end

/-- The value of a formula: sums of products of powers, with parentheses and `log2`. -/
def evaluate (source : String) : Except Fault Float := do
  let (value, ⟨rest, _⟩) ← sum (← Lexeme.scan 0 source.toList)
  match rest with
  | l :: _ => throw (.unexpectedLexeme l.offset)
  | [] => if value.isFinite then return value else throw .notFinite

end Rendition.Formula
