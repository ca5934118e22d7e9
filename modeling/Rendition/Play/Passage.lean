import Rendition.Settings
import Rendition.Sound.Event
import Rendition.Table

namespace Rendition

structure Mark where
  kind : String
  bar : Nat
  index : Nat
  time : Float
  deriving DecidableEq, Repr

abbrev Marks := Table String (List Mark)

namespace Marks

def add (marks : Marks) (group : String) (more : List Mark) : Marks :=
  marks.insert group ((marks.find? group).getD [] ++ more)

def addAll (marks inner : Marks) (time : Float) : Marks :=
  inner.entries.foldl
    (fun marks entry ↦ marks.add entry.1 (entry.2.map fun mark ↦ { mark with
      time := mark.time + time })) marks

end Marks

/-- A passage that has been played. Its times count from its own start, and so do those of its
events, which are given by their places in the session. -/
structure Passage where
  events : List Nat := []
  marks : Marks := ∅
  remarks : List Remark := []
  progress : Progress := {}
  deriving DecidableEq, Repr

structure Performance where
  id : String
  instrument : String
  events : List Event
  marks : Marks
  remarks : List Remark
  progress : Progress
  effects : Effects
  deriving DecidableEq, Repr

end Rendition
