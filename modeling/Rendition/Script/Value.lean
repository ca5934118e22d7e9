import Rendition.Formula.Value
import Rendition.Score.Symbol

namespace Rendition

/-- An argument with its formulas evaluated. -/
inductive Value where
  | number (value : Float)
  | text (value : String)
  | numbers (values : List Float)
  | phrase (phrase : Phrase)

namespace Value

/-- A phrase stands for itself and any other symbol for a phrase of its own; a formula without a
value is returned with its fault. -/
def ofArgument : Argument → Except (String × Formula.Fault) Value
  | .number value => .ok (.number value)
  | .text value => .ok (.text value)
  | .numbers values => .ok (.numbers values)
  | .formula source => ((Formula.evaluate source).mapError (source, ·)).map .number
  | .symbol (.phrase times content) => .ok (.phrase ⟨times, content⟩)
  | .symbol symbol => .ok (.phrase { content := [symbol] })

def number? : Value → Option Float
  | .number value => some value
  | _ => none

/-- A single number is a list of one. -/
def numbers? : Value → Option (List Float)
  | .number value => some [value]
  | .numbers values => some values
  | _ => none

def phrase? : Value → Option Phrase
  | .phrase content => some content
  | _ => none

end Value

end Rendition
