namespace Rendition

inductive Degree where
  | rest
  | unpitched
  | retrace
  | scale (step : UInt8)
  | named (name : String)
  deriving DecidableEq, Repr

namespace Degree

def ofString : String → Degree
  | "0" => rest
  | "x" => unpitched
  | "%" => retrace
  | "1" => scale 1
  | "2" => scale 2
  | "3" => scale 3
  | "4" => scale 4
  | "5" => scale 5
  | "6" => scale 6
  | "7" => scale 7
  | name => named name

def toString : Degree → String
  | rest => "0"
  | unpitched => "x"
  | retrace => "%"
  | scale step => ToString.toString step.toNat
  | named name => name

end Degree

structure WrittenPitch where
  degree : Degree
  shifts : String := ""
  chords : String := ""
  dynamics : String := ""
  deriving DecidableEq, Repr

/-- Simultaneous pitches with the operators that apply to all of them. -/
structure Note where
  pitches : List WrittenPitch := []
  shifts : String := ""
  lengths : String := ""
  dynamics : String := ""
  staccato : UInt64 := 0
  deriving DecidableEq, Repr

structure BarLine where
  skip : Bool := false
  overlay : Bool := false
  /-- The passes in which the volta plays; absent or beginning with 0 for no volta, empty for the
  passes that no other volta takes. -/
  order : Option (List UInt32) := none
  terminal : Bool := false
  deriving DecidableEq, Repr

def BarLine.isVolta (bar : BarLine) : Bool := bar.order.any fun order ↦ order.head? ≠ some 0

mutual

inductive Symbol where
  | note (note : Note)
  | call (function : String) (arguments : List Argument)
  | phrase (times : Int32) (content : List Symbol)
  | theme (name : String)
  | tie
  | barLine (bar : BarLine)
  | clef (name : String)
  | comment (text : String)
  | space
  | marking (kind : String)

inductive Argument where
  | number (value : Float)
  | text (value : String)
  | numbers (values : List Float)
  | formula (source : String)
  | symbol (value : Symbol)

end

instance : Inhabited Symbol := ⟨.space⟩

/-- Content played `times` times with voltas, or `-times` times up to a coda if not positive. -/
structure Phrase where
  times : Int32 := -1
  content : List Symbol

structure Call where
  function : String
  arguments : List Argument := []

def Call.symbol (call : Call) : Symbol := .call call.function call.arguments

namespace Symbol

def isBarLine : Symbol → Bool
  | .barLine _ => true
  | _ => false

def isCoda : Symbol → Bool
  | .barLine bar => bar.skip
  | _ => false

end Symbol

mutual

def Symbol.depth : Symbol → Nat
  | .call _ arguments => 1 + Symbol.argumentsDepth arguments
  | .phrase _ content => 1 + Symbol.contentDepth content
  | _ => 0

def Argument.depth : Argument → Nat
  | .symbol value => 1 + value.depth
  | _ => 0

def Symbol.contentDepth : List Symbol → Nat
  | [] => 0
  | s :: rest => max s.depth (Symbol.contentDepth rest)

def Symbol.argumentsDepth : List Argument → Nat
  | [] => 0
  | a :: rest => max a.depth (Symbol.argumentsDepth rest)

end

end Rendition
