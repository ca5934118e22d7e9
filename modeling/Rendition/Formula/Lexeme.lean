namespace Rendition.Formula

inductive Lexeme where
  | number (value : Float)
  | name (text : String)
  | plus
  | minus
  | times
  | over
  | power
  | opening
  | closing
  deriving DecidableEq, Repr

/-- A lexeme and the UTF-8 offset of its first character. -/
structure Located where
  lexeme : Lexeme
  offset : Nat
  deriving DecidableEq, Repr

inductive Fault where
  | unexpectedCharacter (character : Char) (offset : Nat)
  | unexpectedEnd
  | unexpectedLexeme (offset : Nat)
  | unknownFunction (name : String)
  | divisionByZero
  | notFinite
  deriving DecidableEq, Repr

def Fault.message : Fault → String
  | .unexpectedCharacter character offset =>
    s!"Unexpected character '{character}' at offset {offset}"
  | .unexpectedEnd => "Unexpected end of expression"
  | .unexpectedLexeme offset => s!"Unexpected token at offset {offset}"
  | .unknownFunction name => s!"Unknown function '{name}'"
  | .divisionByZero => "Division by zero"
  | .notFinite => "Result is not a finite number"

namespace Lexeme

def isBlank (c : Char) : Bool := c = ' ' || c = '\t'

def isNumeric (c : Char) : Bool := c.isDigit || c = '.'

def sign? : Char → Option Lexeme
  | '+' => some .plus
  | '-' => some .minus
  | '*' => some .times
  | '/' => some .over
  | '^' => some .power
  | '(' => some .opening
  | ')' => some .closing
  | _ => none

def digitsValue (digits : List Char) : Nat :=
  digits.foldl (fun n c ↦ 10 * n + (c.toNat - '0'.toNat)) 0

def numberValue? (run : List Char) : Option Float :=
  let whole := run.takeWhile Char.isDigit
  let fraction := (run.dropWhile Char.isDigit).drop 1
  if fraction.all Char.isDigit && !(whole.isEmpty && fraction.isEmpty) then
    some (Float.ofScientific (digitsValue (whole ++ fraction)) true fraction.length)
  else none

/-- Cuts a formula, whose first character stands at `offset`, into the longest lexemes. -/
def scan (offset : Nat) : List Char → Except Fault (List Located)
  | [] => .ok []
  | c :: rest =>
    if isBlank c then scan (offset + 1) rest
    else match sign? c with
      | some sign => do return ⟨sign, offset⟩ :: (← scan (offset + 1) rest)
      | none =>
        if isNumeric c then
          match numberValue? (c :: rest.takeWhile isNumeric) with
          | some value => do
            return ⟨.number value, offset⟩ ::
              (← scan (offset + 1 + (rest.takeWhile isNumeric).length) (rest.dropWhile isNumeric))
          | none => .error (.unexpectedCharacter c offset)
        else if c.isAlpha then do
          return ⟨.name (String.ofList (c :: rest.takeWhile Char.isAlphanum)), offset⟩ ::
            (← scan (offset + 1 + (rest.takeWhile Char.isAlphanum).length)
              (rest.dropWhile Char.isAlphanum))
        else .error (.unexpectedCharacter c offset)
  termination_by cs => cs.length
  decreasing_by
    all_goals simp only [List.length_cons]
    · omega
    · omega
    · exact Nat.lt_succ_of_le (List.dropWhile_suffix _).length_le
    · exact Nat.lt_succ_of_le (List.dropWhile_suffix _).length_le

end Lexeme

end Rendition.Formula
