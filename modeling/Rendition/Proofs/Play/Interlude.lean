import Rendition.Proofs.Play.Outcome

namespace Rendition

/-- A phrase that the body of a function plays, with the caller and the session as it finds them. -/
structure Interlude where
  scope : Scope
  session : Session
  phrase : Phrase
  overrides : Overrides
  access : Access

def Interlude.run (player : Player) (i : Interlude) : Option (Except Fault Passage × Session) :=
  (i.scope.playPhrase player i.phrase i.overrides i.access).run i.session

namespace Scope

variable {α : Type} (stage : Stage) (player : Player)

/-- The interludes of a script, in the order in which they are played. -/
def interludesOf (name : String) (access : Access) : Script α → Scope → Session → List Interlude
  | .done _, _, _ | .fail _, _, _ => []
  | .play phrase overrides inner next, scope, s =>
    let interlude : Interlude := ⟨scope, s, phrase, overrides, inner⟩
    interlude :: match interlude.run player with
      | some (r, s') => interludesOf name access (next r) scope s'
      | none => []
  | .join passages next, scope, s =>
    let joined := scope.join stage passages s
    interludesOf name access (next joined.1) scope joined.2
  | .remark message next, scope, s =>
    interludesOf name access next (scope.remark (.function name message)) s
  | .settings next, scope, s => interludesOf name access (next scope.settings) scope s
  | .setSettings settings next, scope, s => interludesOf name access next { scope with settings } s
  | .trace next, scope, s =>
    interludesOf name access (next (if access.reads then some s.trace else none)) scope s
  | .record entry next, scope, s =>
    interludesOf name access (next access.writes) scope
      (if access.writes then { s with trace := s.trace ++ [entry] } else s)
  | .progress next, scope, s => interludesOf name access (next scope.progress) scope s

def interludes (name : String) (arguments : List Argument) (scope : Scope) (s : Session) :
    List Interlude :=
  match stage.repertoire.functions.find? name, arguments.mapM Value.ofArgument with
  | some function, .ok values =>
    interludesOf stage player name function.access (function.body name values) scope s
  | _, _ => []

theorem interludes_eq {name : String} {arguments : List Argument} {function : Function}
    {values : List Value} (hf : stage.repertoire.functions.find? name = some function)
    (hv : arguments.mapM Value.ofArgument = .ok values) (scope : Scope) (s : Session) :
    scope.interludes stage player name arguments s =
      scope.interludesOf stage player name function.access (function.body name values) s := by
  rw [interludes, hf, hv]

end Scope

end Rendition
