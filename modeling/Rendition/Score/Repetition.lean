import Rendition.Remark
import Rendition.Score.Symbol

namespace Rendition

namespace Repetition

/-- The passes written on a volta; `none` for a symbol that is no volta. -/
def written? : Symbol → Option (List Nat)
  | .barLine bar => if bar.isVolta then some ((bar.order.getD []).map UInt32.toNat) else none
  | _ => none

def unclaimed (orders : List (Option (List Nat))) (passes : Nat) : List Nat :=
  (List.range' 1 passes).filter fun pass ↦ !orders.any fun order ↦ order.any (·.contains pass)

def fillDefault (free : List Nat) : List (Option (List Nat)) → List (Option (List Nat))
  | [] => []
  | some [] :: rest => some free :: rest
  | order :: rest => order :: fillDefault free rest

/-- The passes that each volta takes, once the default volta has what no other claims. -/
def orders (content : List Symbol) (passes : Nat) : List (Option (List Nat)) :=
  let written := content.map written?
  fillDefault (unclaimed written passes) written

/-- The symbols that play in a pass: a volta settles whether it and what follows up to the next one
do. -/
def pass (number : Nat) : (playing : Bool) → List (Symbol × Option (List Nat)) → List Symbol
  | _, [] => []
  | playing, (symbol, none) :: rest =>
    if playing then symbol :: pass number true rest else pass number false rest
  | _, (symbol, some order) :: rest =>
    if order.contains number then symbol :: pass number true rest else pass number false rest

def plainBar : Symbol := .barLine {}

def codas (content : List Symbol) : List Nat :=
  (content.zipIdx.filter fun s ↦ s.1.isCoda).map Prod.snd

def amiss (finding : Finding) (index : Nat) : Remark := .located finding { index }

def withVoltas (content : List Symbol) (passes : Nat) : List Symbol × List Remark :=
  let ordered := content.zip (orders content passes)
  ((List.range' 1 passes).flatMap fun number ↦ pass number true ordered ++ [plainBar],
    (codas content).map (amiss .unexpectedCoda))

/-- Only an order of the single pass 0 has no meaning of its own where there are no voltas. -/
def unexpectedOrder? : Symbol → Option (List UInt32)
  | .barLine { order := some order, .. } => if order = [0] then none else some order
  | _ => none

/-- The content that is played once if no repeat count is written ends in a bar line. -/
def body (content : List Symbol) (times : Int) : List Symbol :=
  if times = -1 ∧ content.getLast?.any (!·.isBarLine) then content ++ [plainBar] else content

def copies (n : Nat) (content : List Symbol) : List Symbol :=
  if content.isEmpty then [] else (List.replicate n content).flatten

/-- Plays the content again and again; the last time it stops before the first coda. -/
def withCoda (content : List Symbol) (times : Int) : List Symbol × List Remark :=
  let body := body content times
  let voltas := content.zipIdx.filterMap fun s ↦
    (unexpectedOrder? s.1).map fun order ↦ amiss (.unexpectedVolta order) s.2
  let further := ((codas body).drop 1).map (amiss .multiCoda)
  let symbols := match (codas body).head?, times.natAbs with
    | some cut, n + 1 => copies n body ++ body.take cut
    | _, n => copies n body
  (symbols, voltas ++ further)

def unfold (content : List Symbol) (times : Int) : List Symbol × List Remark :=
  if 0 < times then withVoltas content times.toNat else withCoda content times

end Repetition

end Rendition
