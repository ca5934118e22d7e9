import Rendition.Score.Repetition
import Rendition.Sound.Playing

namespace Rendition

/-- A passage being played: its settings, counters and output so far. -/
structure Scope where
  settings : Settings
  progress : Progress := {}
  remarks : List Remark := []
  events : List Nat := []
  marks : Marks
  /-- The length of the session's trace when the passage began. -/
  traceStart : Nat
  /-- Whether the first bar is left to the passage around, which knows what came before it. -/
  nested : Bool
  deriving DecidableEq, Repr

def barTolerance : Float := 1e-7

def voiceTolerance : Float := 1e-10

namespace Scope

def enter (stage : Stage) (settings : Settings) (session : Session) (nested : Bool) : Scope where
  settings
  marks := ⟨stage.repertoire.groups.map (·, [])⟩
  traceStart := session.trace.length
  nested

def place (scope : Scope) : Place := scope.progress.place

def atIndex (scope : Scope) (index : Nat) : Scope :=
  { scope with progress := { scope.progress with index } }

def remark (scope : Scope) (finding : Finding) : Scope :=
  { scope with remarks := scope.remarks ++ [.located finding scope.place] }

def isFull (scope : Scope) (beats : Float) : Bool :=
  beats == 0 || (beats - scope.settings.bar).abs < barTolerance

def checkBar (scope : Scope) (beats time : Float) : Scope :=
  if scope.isFull beats then scope else scope.remark (.barLength scope.settings.bar beats time)

def endBar (scope : Scope) (terminal : Bool) : Scope :=
  let beats := scope.progress.beatsOpen
  if beats == 0 then scope
  else
    let first := scope.progress.barCount == 0
    let progress := { scope.progress with
      firstBarTime := if first then scope.progress.duration else scope.progress.firstBarTime
      barCount := scope.progress.barCount + 1 }
    let scope := { scope with progress }
    let scope := if first && scope.nested || terminal then scope
      else scope.checkBar beats scope.progress.duration
    { scope with progress := { scope.progress with barLast := 0 } }

def playBarLine (scope : Scope) (bar : BarLine) : Scope :=
  let scope := scope.endBar bar.terminal
  if bar.overlay then { scope with progress := scope.progress.nextVoice } else scope

def longest (durations : List Float) : Float := durations.foldl Number.larger 0

def settleVoices (scope : Scope) : Scope :=
  if scope.progress.voices.isEmpty then scope
  else
    let p := scope.progress.nextVoice
    let most := longest p.voices
    let scope := { scope with progress := { p with voices := [] } }
    let scope := if p.voices.any fun d ↦ voiceTolerance < (most - d).abs then
        scope.remark (.diffDuration most p.voices)
      else scope
    { scope with
      progress :=
        { scope.progress with
          duration := most, beatCount := scope.progress.voiceBeats, voiceBeats := 0 } }

def playMarking (scope : Scope) (stage : Stage) (kind : String) : Scope :=
  let p := scope.progress
  let marks := match stage.repertoire.annotations.find? kind with
    | some rule =>
      if rule.preserve then scope.marks.add rule.group [⟨kind, p.barCount, p.index, p.duration⟩]
      else scope.marks
    | none => scope.marks
  { scope with marks, progress := { p with after := insertKind kind p.after } }

/-- The passage that has been played. Its trace is what the session's trace has gained since it
began. -/
def conclude (scope : Scope) (session : Session) : Passage :=
  let scope := scope.settleVoices
  { events := scope.events
    marks := scope.marks
    remarks := scope.remarks
    progress := { scope.progress with
      trace := session.trace.drop scope.traceStart
      tieLeft := session.tieLeft } }

/-- Continues the bars by those of an inner passage, whose first bar joins the one that is open. -/
def joinBars (scope : Scope) (inner : Progress) : Scope :=
  if inner.barCount = 0 then { scope with progress := scope.progress.lengthen inner.barFirst }
  else
    let first := scope.progress.barCount == 0
    let beats := scope.progress.beatsOpen + inner.barFirst
    let time := scope.progress.duration + inner.firstBarTime
    let progress := { scope.progress with
      barFirst := if first then beats else scope.progress.barFirst
      firstBarTime := if first then time else scope.progress.firstBarTime
      barCount := scope.progress.barCount + 1 }
    let scope := { scope with progress }
    let scope := if first && scope.nested then scope else scope.checkBar beats time
    { scope with progress := { scope.progress with
      barCount := scope.progress.barCount + (inner.barCount - 1)
      barLast := inner.barLast } }

/-- Adds an inner passage at the clock, as if its symbols stood in its place. -/
def absorb (scope : Scope) (stage : Stage) (passage : Passage) : Scope :=
  let place := scope.place
  let time := scope.progress.duration
  let inner := passage.progress
  let scope := scope.joinBars inner
  let p := scope.progress
  { scope with
    progress := { p with
      duration := p.duration + inner.duration
      beatCount := p.beatCount + inner.beatCount
      after := inner.after.foldl (fun kinds kind ↦ insertKind kind kinds) p.after }
    events := scope.events ++ passage.events
    remarks := scope.remarks ++ passage.remarks.map (·.within place time)
    marks := stage.repertoire.plugins.collect passage (scope.marks.addAll passage.marks time) }

def add (scope : Scope) (stage : Stage) (passage : Passage) (session : Session) : Scope × Session :=
  (scope.absorb stage passage,
    session.later passage.events scope.progress.duration scope.progress.beatCount)

/-- Adds passages one after another, the first as the symbol of the given index. -/
def addEach (stage : Stage) : (index : Nat) → List Passage → Scope → Session → Scope × Session
  | _, [], scope, session => (scope, session)
  | index, passage :: rest, scope, session =>
    let (scope, session) := (scope.atIndex index).add stage passage session
    addEach stage (index + 1) rest scope session

/-- Joins passages into one, as if they had been played one after another. -/
def join (scope : Scope) (stage : Stage) (passages : List Passage) (session : Session) :
    Passage × Session :=
  let (joined, session) :=
    addEach stage 0 passages (enter stage scope.settings session true) session
  let passage := joined.conclude session
  ({ passage with progress := { passage.progress with
    trace := passages.flatMap (·.progress.trace) } }, session)

end Scope

end Rendition
