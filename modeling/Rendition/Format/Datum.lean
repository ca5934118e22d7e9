import Rendition.Number.Decimal

namespace Rendition

/-- Plain data, as scores and settings are written down. An integer and a real of the same value
differ. -/
inductive Datum where
  | null
  | bool (value : Bool)
  | integer (value : Int)
  | real (value : Float)
  | text (value : String)
  | list (items : List Datum)
  | record (fields : List (String × Datum))

namespace Datum

def bool? : Datum → Option Bool
  | bool value => some value
  | _ => none

def text? : Datum → Option String
  | text value => some value
  | _ => none

/-- A text, or a bare scalar as it is written. -/
def word? : Datum → Option String
  | text value => some value
  | null => some "null"
  | bool value => some (if value then "true" else "false")
  | integer value => some (toString value)
  | real value => some (Number.literal value)
  | _ => none

def real? : Datum → Option Float
  | real value => some value
  | integer value => some (Float.ofInt value)
  | _ => none

def integer? (low high : Int) : Datum → Option Int
  | integer value => if low ≤ value ∧ value ≤ high then some value else none
  | _ => none

def int32? (d : Datum) : Option Int32 := (d.integer? (-0x80000000) 0x7fffffff).map Int32.ofInt

def uint8? (d : Datum) : Option UInt8 := (d.integer? 0 0xff).map fun n ↦ UInt8.ofNat n.toNat

def uint32? (d : Datum) : Option UInt32 :=
  (d.integer? 0 0xffffffff).map fun n ↦ UInt32.ofNat n.toNat

def uint64? (d : Datum) : Option UInt64 :=
  (d.integer? 0 0xffffffffffffffff).map fun n ↦ UInt64.ofNat n.toNat

def list? {α : Type} (read : Datum → Option α) : Datum → Option (List α)
  | list items => items.mapM read
  | _ => none

def nullable {α : Type} (read : Datum → Option α) : Datum → Option (Option α)
  | null => some none
  | d => (read d).map some

def record? : Datum → Option (List (String × Datum))
  | record fields => some fields
  | _ => none

def find (name : String) : (fields : List (String × Datum)) →
    Option { d : Datum // d ∈ fields.map Prod.snd }
  | [] => none
  | (n, d) :: rest =>
    if n = name then some ⟨d, List.mem_cons_self⟩
    else (find name rest).map fun ⟨d, h⟩ ↦ ⟨d, List.mem_cons_of_mem _ h⟩

section Fields

variable {α : Type} (fields : List (String × Datum)) (name : String) (read : Datum → Option α)

def required : Option α := (find name fields).bind fun d ↦ read d.1

def orElse (absent : α) : Option α :=
  match find name fields with
  | some d => read d.1
  | none => some absent

def optional : Option (Option α) := orElse fields name (nullable read) none

end Fields

def ofOption {α : Type} (write : α → Datum) : Option α → Datum
  | some value => write value
  | none => null

def ofList {α : Type} (write : α → Datum) (values : List α) : Datum := list (values.map write)

def ofNat (n : Nat) : Datum := integer n

def ofInt32 (n : Int32) : Datum := integer n.toInt

def ofChar (c : Char) : Datum := text (String.singleton c)

end Datum

end Rendition
