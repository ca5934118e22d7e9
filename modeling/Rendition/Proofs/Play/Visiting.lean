import Rendition.Proofs.Play.Interlude

namespace Rendition

/-- A symbol that a run comes to, with the scope that it finds and those of the passages
around, innermost first. -/
structure Visit where
  around : List Scope
  scope : Scope
  symbol : Symbol

namespace Visit

def inside (outer : Scope) (v : Visit) : Visit := { v with around := v.around ++ [outer] }

/-- The clock of the passage in which the symbol stands, moved by that of each passage around in
turn. -/
def time (v : Visit) : Float :=
  v.around.foldl (fun time scope ↦ time + scope.progress.duration) v.scope.progress.duration

theorem time_inside (outer : Scope) (v : Visit) :
    (v.inside outer).time = v.time + outer.progress.duration := by
  simp [time, inside]

end Visit

section Visits

/-- The symbols that a run comes to in an inner passage. -/
abbrev Tour := Settings → List Remark → List Symbol → Session → List Visit

variable (stage : Stage) (player : Player) (tour : Tour)

def Interlude.visits (i : Interlude) : List Visit :=
  (tour (i.scope.settings.override i.overrides) i.phrase.written.2 i.phrase.written.1
    (i.access.lend i.session)).map (·.inside i.scope)

namespace Scope

def repeatedVisits (content : List Symbol) (times : Int) (scope : Scope) (s : Session) :
    List Visit :=
  (tour scope.settings (Repetition.unfold content times).2 (Repetition.unfold content times).1
    s).map (·.inside scope)

def symbolVisits (scope : Scope) (s : Session) : Symbol → List Visit
  | .call name arguments => (scope.interludes stage player name arguments s).flatMap (·.visits tour)
  | .phrase times content => scope.repeatedVisits tour content times.toInt s
  | .theme name =>
    match stage.repertoire.themes.find? name with
    | none => []
    | some content =>
      if name ∈ s.active then [] else scope.repeatedVisits tour content (-1) (s.entering name)
  | .note _ | .tie | .barLine _ | .marking _ | .clef _ | .comment _ | .space => []

def visitsFrom : (index : Nat) → List Symbol → Scope → Session → List Visit
  | _, [], _, _ => []
  | index, symbol :: rest, scope, s =>
    ⟨[], scope.atIndex index, symbol⟩ :: (scope.atIndex index).symbolVisits stage player
      tour s symbol ++ match outcome ((scope.atIndex index).playSymbol stage player symbol) s with
      | some (.ok scope', s') => visitsFrom (index + 1) rest scope' s'
      | _ => []

end Scope

end Visits

/-- The symbols that a run comes to in passages that lie at most `depth` deep inside one
another, in their order. -/
def visitsOf (stage : Stage) : (depth : Nat) → Tour
  | 0 => fun _ _ _ _ ↦ []
  | depth + 1 => fun settings remarks symbols s ↦
    (Scope.begin stage s settings remarks).visitsFrom stage (playerOf stage depth)
      (visitsOf stage depth) 0 symbols s

def trackVisits (stage : Stage) (settings : Settings) (symbols : List Symbol) (s : Session) :
    List Visit :=
  (Scope.enter stage settings s false).visitsFrom stage
    (playerOf stage (stage.repertoire.depthOf symbols))
    (visitsOf stage (stage.repertoire.depthOf symbols)) 0 symbols s

end Rendition
