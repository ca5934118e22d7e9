import Rendition.Number.Decimal

namespace Rendition

inductive SettingFault where
  | empty
  | offsetOutOfRange (offset : Int32)
  | outOfRange (value : Float)
  | traceTooShort
  | traceNotWhole
  | unknown
  deriving DecidableEq, Repr

def SettingFault.message : SettingFault → String
  | .empty => "must not be empty"
  | .offsetOutOfRange offset => s!"{offset} is out of range"
  | .outOfRange value => Number.text value ++ " is out of range"
  | .traceTooShort => "must be at least 1"
  | .traceNotWhole => "must be a positive integer"
  | .unknown => "unknown setting"

inductive ArgumentFault where
  | missing (position : Nat)
  | notNumber (position : Nat)
  | notWhole (position : Nat)
  | notList (position : Nat)
  | notTrack (position : Nat)
  | octaveShift
  | keyShift
  | tupletCount
  | negativeStaccato
  | staccatoPastEnd (index : Nat)
  | custom (message : String)
  deriving DecidableEq, Repr

def ArgumentFault.message : ArgumentFault → String
  | .missing position => s!"missing argument {position}"
  | .notNumber position => s!"argument {position} must be a number"
  | .notWhole position => s!"argument {position} must be a whole number"
  | .notList position => s!"argument {position} must be a list"
  | .notTrack position => s!"argument {position} must be a track"
  | .octaveShift => "octave shift out of range"
  | .keyShift => "key shift out of range"
  | .tupletCount => "tuplet count must be positive"
  | .negativeStaccato => "staccato index must not be negative"
  | .staccatoPastEnd index => s!"staccato index {index} is past the end of the table"
  | .custom message => message

/-- Why a passage, or a function called in it, ended early. -/
inductive Fault where
  | undefinedTheme (name : String) (bar index : Nat)
  | setting (name : String) (fault : SettingFault)
  | argument (function : String) (fault : ArgumentFault)
  deriving DecidableEq, Repr

def Fault.message : Fault → String
  | .undefinedTheme name bar index => s!"Undefined track '{name}' at bar {bar}, token {index}"
  | .setting name fault => s!"Invalid setting '{name}': " ++ fault.message
  | .argument function fault => s!"Invalid argument for '{function}': " ++ fault.message

end Rendition
