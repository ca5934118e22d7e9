import Rendition.Play.Scope

namespace Rendition

/-- Something done in a session; `none` once passages lie deeper inside one another than allowed. -/
abbrev Act := StateT Session Option

abbrev Play := ExceptT Fault Act

def attempt {α : Type} (play : Play α) : Play (Except Fault α) := ExceptT.lift (m := Act) play.run

/-- Plays symbols as an inner passage, under some settings and after some remarks. -/
abbrev Player := Settings → List Remark → List Symbol → Play Passage

namespace Scope

variable (stage : Stage) (player : Player)

def addPassage (passage : Passage) (scope : Scope) : Play Scope :=
  modifyGet (scope.add stage passage)

def playRepeated (content : List Symbol) (times : Int) (scope : Scope) : Play Passage :=
  let (symbols, remarks) := Repetition.unfold content times
  player scope.settings remarks symbols

/-- Plays a phrase for a function. Content that is to play once is played as written. What the
access forbids is taken back from the trace afterwards. -/
def playPhrase (phrase : Phrase) (overrides : Overrides) (access : Access) (scope : Scope) :
    Act (Except Fault Passage) := do
  let (symbols, remarks) :=
    if phrase.times = -1 then (phrase.content, [])
    else Repetition.unfold phrase.content phrase.times.toInt
  let before := (← get).trace
  unless access.reads do modify ({ · with trace := [] })
  let mark := (← get).trace.length
  let answer ← (player (scope.settings.override overrides) remarks symbols).run
  unless access.writes do modify fun s ↦ { s with trace := s.trace.take mark }
  unless access.reads do modify ({ · with trace := before })
  return answer

def answer {α : Type} (name : String) (access : Access) :
    Script α → Scope → Act (Except Fault α × Scope)
  | .done a, scope => return (.ok a, scope)
  | .fail fault, scope => return (.error fault, scope)
  | .play phrase overrides inner next, scope => do
    answer name access (next (← scope.playPhrase player phrase overrides inner)) scope
  | .join passages next, scope => do
    answer name access (next (← modifyGet (scope.join stage passages))) scope
  | .remark message next, scope => answer name access next (scope.remark (.function name message))
  | .settings next, scope => answer name access (next scope.settings) scope
  | .setSettings settings next, scope => answer name access next { scope with settings }
  | .trace next, scope => do
    let session ← get
    answer name access (next (if access.reads then some session.trace else none)) scope
  | .record entry next, scope => do
    if access.writes then modify fun s ↦ { s with trace := s.trace ++ [entry] }
    answer name access (next access.writes) scope
  | .progress next, scope => answer name access (next scope.progress) scope

/-- Calls a function by name. A fault of its own makes a remark of the call; an undefined
theme ends the passage. -/
def call (name : String) (arguments : List Argument) (scope : Scope) : Play Scope := do
  match stage.repertoire.functions.find? name with
  | none => return scope.remark (.unknownFunction name)
  | some function =>
    match arguments.mapM Value.ofArgument with
    | .error (source, fault) => return scope.remark (.badExpression source fault.message)
    | .ok values =>
      let (result, scope) ← answer stage player name function.access
        (function.body name values) scope
      match result with
      | .ok none => return scope
      | .ok (some passage) => scope.addPassage stage passage
      | .error (.undefinedTheme name bar index) => throw (.undefinedTheme name bar index)
      | .error fault => return scope.remark (.function name fault.message)

def playTheme (name : String) (scope : Scope) : Play Scope := do
  match stage.repertoire.themes.find? name with
  | none => throw (.undefinedTheme name scope.progress.barCount scope.progress.index)
  | some content =>
    if name ∈ (← get).active then return scope.remark (.recursiveTrack name)
    modify fun s ↦ { s with active := s.active ++ [name] }
    let result ← attempt (scope.playRepeated player content (-1))
    modify fun s ↦ { s with active := s.active.dropLast }
    match result with
    | .ok passage => scope.addPassage stage passage
    | .error fault => throw fault

def playNote (note : Note) (scope : Scope) : Play Scope := do
  let (outcome, session, progress) := note.play stage scope.settings (← get) scope.progress
  set session
  return { scope with
    progress := progress.lengthen outcome.beat
    events := scope.events ++ outcome.events
    remarks := scope.remarks ++ outcome.remarks }

def playSymbol (scope : Scope) : Symbol → Play Scope
  | .note note => scope.playNote stage note
  | .call name arguments => scope.call stage player name arguments
  | .phrase times content => do
    scope.addPassage stage (← scope.playRepeated player content times.toInt)
  | .theme name => scope.playTheme stage player name
  | .tie => do
    modify ({ · with tieLeft := true })
    return scope
  | .barLine bar => return scope.playBarLine bar
  | .marking kind => return scope.playMarking stage kind
  | .clef _ | .comment _ | .space => return scope

def playFrom (index : Nat) : List Symbol → Scope → Play Scope
  | [], scope => return scope
  | symbol :: rest, scope => do
    playFrom (index + 1) rest (← (scope.atIndex index).playSymbol stage player symbol)

end Scope

/-- Plays passages that lie at most `depth` deep inside one another. -/
def playerOf (stage : Stage) : (depth : Nat) → Player
  | 0 => fun _ _ _ _ ↦ none
  | depth + 1 => fun settings remarks symbols ↦ do
    let scope := { Scope.enter stage settings (← get) true with remarks }
    let scope ← scope.playFrom stage (playerOf stage depth) 0 symbols
    return scope.conclude (← get)

/-- How deep functions may play passages inside one another beyond what scores can. -/
def functionDepth : Nat := 10000

def totalDepth (themes : List (String × List Symbol)) : Nat :=
  themes.foldr (fun theme depth ↦ Symbol.contentDepth theme.2 + 1 + depth) 0

def Repertoire.depthOf (r : Repertoire) (symbols : List Symbol) : Nat :=
  Symbol.contentDepth symbols + totalDepth r.themes.entries + functionDepth

end Rendition
