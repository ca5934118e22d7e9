import Rendition.Proofs.Play.Swallowing

namespace Rendition

/-- A bar that has closed. The length expected of it, its beats and its time are those where
it is to be checked. -/
structure Closing where
  line : BarLine
  /-- Whether the passage that the bar line stands in has left the bar to the passages around. -/
  left : Bool
  bar : Float
  beats : Float
  time : Float
  deriving DecidableEq, Repr

namespace Closing

def isFull (c : Closing) : Bool := c.beats == 0 || (c.beats - c.bar).abs < barTolerance

/-- What is remarked on the bar. That its bar line is terminal counts only in the passage that the
bar line stands in. -/
def report? (c : Closing) : Option (Float × Float × Float) :=
  if c.line.terminal && !c.left || c.isFull then none else some (c.bar, c.beats, c.time)

def later (time : Float) (c : Closing) : Closing := { c with time := c.time + time }

end Closing

/-- The bars that a player closes. -/
abbrev Ledger := Settings → List Remark → List Symbol → Session → List Closing

/-- Passages that a function holds, with their bars. Equal passages are not told apart. -/
abbrev Holding := List (Passage × List Closing)

namespace Holding

def bars (held : Holding) (passage : Passage) : List Closing := (held.lookup passage).getD []

def hold (held : Holding) (bars : List Closing) : Except Fault Passage → Holding
  | .ok passage => (passage, bars) :: held
  | .error _ => held

end Holding

namespace Scope

def closings (scope : Scope) (line : BarLine) : List Closing :=
  if scope.progress.beatsOpen == 0 then []
  else [{
    line
    left := scope.progress.barCount == 0 && scope.nested
    bar := scope.settings.bar
    beats := scope.progress.beatsOpen
    time := scope.progress.duration }]

/-- The bars of an inner passage, the first of which goes on from the bar that is open. -/
def adopt (scope : Scope) (inner : Progress) : List Closing → List Closing
  | [] => []
  | first :: rest =>
    { first with
      bar := scope.settings.bar
      beats := scope.progress.beatsOpen + inner.barFirst
      time := scope.progress.duration + inner.firstBarTime } ::
        rest.map (.later scope.progress.duration)

section

variable (stage : Stage) (player : Player) (ledger : Ledger)

def joinedClosings (held : Holding) : (index : Nat) → List Passage → Scope → List Closing
  | _, [], _ => []
  | index, passage :: rest, scope =>
    scope.adopt passage.progress (held.bars passage) ++
      joinedClosings held (index + 1) rest ((scope.atIndex index).absorb stage passage)

def answerClosings (name : String) (access : Access) :
    Script (Option Passage) → Holding → Scope → Session → List Closing
  | .done answer, held, _, _ => answer.elim [] held.bars
  | .fail _, _, _, _ => []
  | .play phrase overrides inner next, held, scope, s =>
    let bars := ledger (scope.settings.override overrides) phrase.written.2 phrase.written.1
      (inner.lend s)
    match (scope.playPhrase player phrase overrides inner).run s with
    | some (r, s') => answerClosings name access (next r) (held.hold bars r) scope s'
    | none => []
  | .join passages next, held, scope, s =>
    let joined := scope.join stage passages s
    let bars := (enter stage scope.settings s true).joinedClosings stage held 0 passages
    answerClosings name access (next joined.1) ((joined.1, bars) :: held) scope joined.2
  | .remark message next, held, scope, s =>
    answerClosings name access next held (scope.remark (.function name message)) s
  | .settings next, held, scope, s => answerClosings name access (next scope.settings) held scope s
  | .setSettings settings next, held, scope, s =>
    answerClosings name access next held { scope with settings } s
  | .trace next, held, scope, s =>
    answerClosings name access (next (if access.reads then some s.trace else none)) held scope s
  | .record entry next, held, scope, s =>
    answerClosings name access (next access.writes) held scope
      (if access.writes then { s with trace := s.trace ++ [entry] } else s)
  | .progress next, held, scope, s => answerClosings name access (next scope.progress) held scope s

def repeatedClosings (content : List Symbol) (times : Int) (scope : Scope) (s : Session) :
    List Closing :=
  match outcome (scope.playRepeated player content times) s with
  | some (.ok passage, _) => scope.adopt passage.progress
      (ledger scope.settings (Repetition.unfold content times).2
        (Repetition.unfold content times).1 s)
  | _ => []

def callClosings (name : String) (function : Function) (values : List Value) (scope : Scope)
    (s : Session) :
    List Closing :=
  match (answer stage player name function.access (function.body name values) scope).run s with
  | some ((.ok (some passage), scope'), _) => scope'.adopt passage.progress
      (answerClosings stage player ledger name function.access
        (function.body name values) [] scope s)
  | _ => []

def symbolClosings (scope : Scope) (s : Session) : Symbol → List Closing
  | .barLine bar => scope.closings bar
  | .phrase times content => scope.repeatedClosings player ledger content times.toInt s
  | .theme name =>
    match stage.repertoire.themes.find? name with
    | some content =>
      if name ∈ s.active then [] else scope.repeatedClosings player ledger content (-1)
        (s.entering name)
    | none => []
  | .call name arguments =>
    match stage.repertoire.functions.find? name, arguments.mapM Value.ofArgument with
    | some function, .ok values => scope.callClosings stage player ledger name function values s
    | _, _ => []
  | .note _ | .tie | .clef _ | .comment _ | .space | .marking _ => []

def closingsFrom : (index : Nat) → List Symbol → Scope → Session → List Closing
  | _, [], _, _ => []
  | index, symbol :: rest, scope, s =>
    (scope.atIndex index).symbolClosings stage player ledger s symbol ++
      match outcome ((scope.atIndex index).playSymbol stage player symbol) s with
      | some (.ok scope', s') => closingsFrom (index + 1) rest scope' s'
      | _ => []

end

end Scope

def ledgerOf (stage : Stage) : (depth : Nat) → Ledger
  | 0 => fun _ _ _ _ ↦ []
  | depth + 1 => fun settings remarks symbols s ↦
    (Scope.begin stage s settings remarks).closingsFrom stage (playerOf stage depth)
      (ledgerOf stage depth) 0 symbols s

/-- The bars of a track, with those of its inner passages, in the order in which they close. -/
def Repertoire.closings (r : Repertoire) (settings : Settings) (instrument : Instrument)
    (name : Option String) (content : List Symbol) : List Closing :=
  let stage := r.stage instrument
  let symbols := instrument.opening ++ content
  let depth := r.depthOf symbols
  (Scope.enter stage settings (.opening name) false).closingsFrom stage (playerOf stage depth)
    (ledgerOf stage depth) 0 symbols (.opening name)

end Rendition
