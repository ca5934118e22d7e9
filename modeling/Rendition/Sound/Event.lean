import Rendition.Number.Exact
import Rendition.Remark

namespace Rendition

structure Event where
  /-- Unpitched if absent. -/
  pitch : Option Int32
  volume : Float
  /-- Seconds it sounds. -/
  duration : Float
  /-- Seconds as written. -/
  nominal : Float
  beat : Float
  startTime : Float
  startBeat : Float
  deriving DecidableEq, Repr

def Event.later (e : Event) (time beats : Float) : Event :=
  { e with startTime := e.startTime + time, startBeat := e.startBeat + beats }

/-- A pitch of the first voice as it is recorded for replay. -/
structure Tone where
  offset : Int32
  gain : Float
  fixed : Bool := false
  deriving DecidableEq, Repr

/-- The tones of each recorded note, oldest first. -/
abbrev Trace := List (List Tone)

/-- A pitch as a voice sounds it, before its volume is clipped. -/
structure Sound where
  pitch : Option Int32
  volume : Float
  fixed : Bool := false
  deriving DecidableEq, Repr

/-- An event that a following tie may prolong. -/
structure Pending where
  event : Nat
  pitch : Option Int32
  volume : Float
  deriving DecidableEq, Repr

/-- What all passages of one track share. -/
structure Session where
  trace : Trace := []
  pending : List Pending := []
  tieLeft : Bool := false
  /-- The themes being played, outermost first. -/
  active : List String := []
  events : Array Event := #[]
  deriving DecidableEq, Repr

namespace Session

def start (s : Session) (event : Event) : Session := { s with events := s.events.push event }

def revise (s : Session) (id : Nat) (f : Event → Event) : Session :=
  { s with events := s.events.modify id f }

def later (s : Session) (ids : List Nat) (time beats : Float) : Session :=
  ids.foldl (fun s id ↦ s.revise id (·.later time beats)) s

def eventsAt (s : Session) (ids : List Nat) : List Event := ids.filterMap (s.events[·]?)

end Session

structure Progress where
  index : Nat := 0
  /-- Beats before the first bar line that closed a bar. -/
  barFirst : Float := 0
  /-- Beats since the last bar line, once a bar has closed. -/
  barLast : Float := 0
  barCount : Nat := 0
  firstBarTime : Float := 0
  duration : Float := 0
  beatCount : Float := 0
  after : List String := []
  trace : Trace := []
  tieLeft : Bool := false
  /-- Seconds of each finished overlay voice. -/
  voices : List Float := []
  voiceBeats : Float := 0
  deriving DecidableEq, Repr

namespace Progress

def place (p : Progress) : Place := ⟨p.barCount, p.index⟩

def beatsOpen (p : Progress) : Float := if p.barCount = 0 then p.barFirst else p.barLast

def lengthen (p : Progress) (beats : Float) : Progress :=
  if p.barCount = 0 then { p with barFirst := p.barFirst + beats }
  else { p with barLast := p.barLast + beats }

/-- Finishes an overlay voice, unless it is empty, and sets the clock back for the next. -/
def nextVoice (p : Progress) : Progress :=
  let p := if p.duration != 0 || p.beatCount != 0 then
      { p with
        voices := p.voices ++ [p.duration]
        voiceBeats := Number.larger p.voiceBeats p.beatCount }
    else p
  { p with duration := 0, beatCount := 0 }

end Progress

def insertKind (kind : String) : List String → List String
  | [] => [kind]
  | k :: rest =>
    if kind < k then kind :: k :: rest
    else if kind = k then k :: rest
    else k :: insertKind kind rest

theorem mem_insertKind {kind k : String} {kinds : List String} :
    k ∈ insertKind kind kinds ↔ k = kind ∨ k ∈ kinds := by
  induction kinds with
  | nil => simp [insertKind]
  | cons k' rest ih => grind [insertKind]

end Rendition
