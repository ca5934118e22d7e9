import Rendition.Sound.Beat
import Rendition.Sound.Reading

namespace Rendition

structure Stage where
  repertoire : Repertoire
  names : PitchNames := ∅

/-- Goes through offsets after those `before`, and lists what has come before and is not listed
yet. -/
def listRepeated : (before listed : List Int32) → List Int32 → List Int32
  | _, listed, [] => listed
  | before, listed, x :: rest =>
    listRepeated (before ++ [x]) (if x ∈ before ∧ x ∉ listed then listed ++ [x] else listed) rest

def repeatedOffsets (sounds : List Sound) : List Int32 :=
  listRepeated [] [] (sounds.filterMap Sound.pitch)

namespace Pending

def continues (tie : Pending) (sound : Sound) : Bool :=
  sound.pitch = tie.pitch && sound.volume == tie.volume

/-- Gives each pending event in turn the first sound left that continues it: the events that found
one, and the sounds that none took. -/
def pair : List Pending → List Sound → List Pending × List Sound
  | [], sounds => ([], sounds)
  | tie :: ties, sounds =>
    if sounds.any tie.continues then
      let (tied, rest) := pair ties (sounds.eraseP tie.continues)
      (tie :: tied, rest)
    else pair ties sounds

def ofSound (event : Nat) (sound : Sound) : Pending := ⟨event, sound.pitch, sound.volume⟩

end Pending

structure Timing where
  beat : Float
  nominal : Float
  duration : Float
  deriving DecidableEq, Repr

namespace Event

def prolong (timing : Timing) (event : Event) : Event :=
  { event with
    nominal := event.nominal + timing.nominal
    duration := event.duration + timing.duration
    beat := event.beat + timing.beat }

def ofSound (timing : Timing) (startTime startBeat : Float) (sound : Sound) : Event where
  pitch := sound.pitch
  volume := Number.smaller sound.volume 1
  duration := timing.duration
  nominal := timing.nominal
  beat := timing.beat
  startTime
  startBeat

end Event

namespace Session

def record (s : Session) (tones : List Tone) : Session :=
  if tones.isEmpty then s else { s with trace := s.trace ++ [tones] }

/-- Lets sounds prolong pending events if a tie stands before them: the events prolonged,
and the sounds left. -/
def tieOver (s : Session) (timing : Timing) (sounds : List Sound) :
    Session × List Pending × List Sound :=
  if s.tieLeft then
    let (tied, rest) := Pending.pair s.pending sounds
    ({ tied.foldl (fun s tie ↦ s.revise tie.event (·.prolong timing)) s with
      tieLeft := false }, tied, rest)
  else (s, [], sounds)

def startAll (s : Session) (events : List Event) : Session × List Nat :=
  (events.foldl start s, List.range' s.events.size events.length)

end Session

/-- What a note gave: the events it started, its beats and the remarks on it. -/
structure NoteOutcome where
  events : List Nat
  beat : Float
  remarks : List Remark
  deriving DecidableEq, Repr

namespace Note

def timing (note : Note) (settings : Settings) : Timing :=
  let beat := Beat.length note.lengths settings.duration
  let nominal := beat * 60 / settings.speed
  { beat, nominal, duration := nominal * (1 - settings.shortening note.staccato.toNat) }

def context (note : Note) (stage : Stage) (settings : Settings) (trace : Trace) : PitchContext where
  settings
  chords := stage.repertoire.chords
  names := stage.names
  trace
  shifts := note.shifts
  dynamics := note.dynamics

def read (note : Note) (stage : Stage) (settings : Settings) (trace : Trace) : PitchReading :=
  let readings := note.pitches.map (·.read (note.context stage settings trace))
  { sounds := readings.flatMap PitchReading.sounds
    tones := readings.flatMap PitchReading.tones
    findings := readings.flatMap PitchReading.findings }

def excesses (sounds : List Sound) : List Finding :=
  let offsets := repeatedOffsets sounds
  let loud := (sounds.map Sound.volume).filter fun v ↦ 1 < v
  (if offsets.isEmpty then [] else [.reduplicate offsets]) ++
    if loud.isEmpty then [] else [.volumeLimit loud]

/-- Plays the note: the sounds that no tie takes start events at the clock, which then moves on. -/
def play (note : Note) (stage : Stage) (settings : Settings) (session : Session)
    (progress : Progress) :
    NoteOutcome × Session × Progress :=
  let timing := note.timing settings
  let reading := note.read stage settings session.trace
  let (session, tied, sounds) := (session.record reading.tones).tieOver timing reading.sounds
  let fresh := sounds.map (.ofSound timing progress.duration progress.beatCount)
  let (session, ids) := session.startAll (stage.repertoire.plugins.revise settings fresh)
  ({ events := ids
     beat := timing.beat
     remarks := (reading.findings ++ excesses reading.sounds).map (.located · progress.place) },
    { session with pending := tied ++ List.zipWith .ofSound ids sounds },
    { progress with
      duration := progress.duration + timing.nominal
      beatCount := progress.beatCount + timing.beat })

end Note

end Rendition
