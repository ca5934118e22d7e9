import Rendition.Format.Score
import Rendition.Format.Settings
import Rendition.Concert

namespace Rendition

open Datum

namespace Event

def toDatum (e : Event) : Datum :=
  record
    [("pitch", ofOption ofInt32 e.pitch), ("volume", real e.volume), ("duration", real e.duration),
      ("nominalDuration", real e.nominal), ("beat", real e.beat), ("startTime", real e.startTime),
      ("startBeat", real e.startBeat)]

end Event

namespace Tone

def toDatum (t : Tone) : Datum :=
  record [("offset", ofInt32 t.offset), ("gain", real t.gain), ("fixed", bool t.fixed)]

end Tone

namespace Sound

def toDatum (s : Sound) : Datum :=
  record [("offset", ofOption ofInt32 s.pitch), ("volume", real s.volume), ("fixed", bool s.fixed)]

end Sound

namespace Pending

def toDatum (p : Pending) : Datum :=
  record [("event", ofNat p.event), ("pitch", ofOption ofInt32 p.pitch), ("volume", real p.volume)]

end Pending

def Trace.toDatum (trace : Trace) : Datum := ofList (ofList Tone.toDatum) trace

namespace Progress

def toDatum (p : Progress) : Datum :=
  record
    [("index", ofNat p.index), ("barFirst", real p.barFirst), ("barLast", real p.barLast),
      ("barCount", ofNat p.barCount), ("firstBarTime", real p.firstBarTime),
      ("duration", real p.duration), ("beatCount", real p.beatCount),
      ("after", ofList text p.after), ("trace", Trace.toDatum p.trace), ("tieLeft", bool p.tieLeft),
      ("voices", ofList real p.voices), ("voiceBeats", real p.voiceBeats)]

end Progress

namespace Effects

def toDatum (e : Effects) : Datum :=
  record [("fadeIn", real e.fadeIn), ("fadeOut", real e.fadeOut), ("rev", real e.rev)]

end Effects

namespace Finding

def tag (finding : Finding) : String :=
  match finding.name.toList with
  | c :: rest => String.ofList (c.toLower :: rest)
  | [] => ""

def details : Finding → List (String × Datum)
  | noPrevious expected actual => [("expected", ofNat expected), ("actual", ofNat actual)]
  | reduplicate offsets => [("actual", ofList ofInt32 offsets)]
  | volumeLimit volumes => [("actual", ofList real volumes)]
  | chordRange chord bound index =>
    [("chord", ofChar chord), ("expected", integer bound), ("actual", integer index)]
  | onFixedNote chord => [("chord", ofChar chord)]
  | unusedNote chord unused => [("chord", ofChar chord), ("unused", ofList ofNat unused)]
  | unknownChord chord => [("chord", ofChar chord)]
  | unknownPitch name => [("name", text name)]
  | barLength expected actual time =>
    [("expected", real expected), ("actual", real actual), ("time", real time)]
  | unexpectedCoda => []
  | unexpectedVolta order => [("order", ofList (fun pass : UInt32 ↦ ofNat pass.toNat) order)]
  | multiCoda => []
  | fadeOverLong fade duration => [("actual", real fade), ("duration", real duration)]
  | unknownInstrument name => [("name", text name)]
  | unknownFunction name => [("name", text name)]
  | recursiveTrack name => [("name", text name)]
  | badExpression source message => [("source", text source), ("message", text message)]
  | function name message => [("name", text name), ("message", text message)]
  | diffDuration longest durations =>
    [("expected", real longest), ("actual", ofList real durations)]

def toDatum (finding : Finding) : Datum := record (("type", text finding.tag) :: finding.details)

end Finding

namespace Remark

def toDatum (d : Remark) : Datum :=
  record
    [("kind", d.finding.toDatum),
      ("position", ofList (fun p : Place ↦ record [("bar", ofNat p.bar),
        ("index", ofNat p.index)]) d.path)]

end Remark

namespace Marks

def toDatum (marks : Marks) : Datum :=
  record <| marks.entries.map fun entry ↦
    (entry.1, ofList (fun mark : Mark ↦ record
      [("kind", text mark.kind), ("bar", ofNat mark.bar), ("index", ofNat mark.index),
        ("time", real mark.time)])
      entry.2)

end Marks

namespace Performance

def toDatum (p : Performance) : Datum :=
  record
    [("id", text p.id), ("instrument", text p.instrument),
      ("events", ofList Event.toDatum p.events), ("notation", p.marks.toDatum),
      ("diagnostics", ofList Remark.toDatum p.remarks), ("state", p.progress.toDatum),
      ("effects", p.effects.toDatum)]

end Performance

namespace SectionPerformance

def toDatum (s : SectionPerformance) : Datum :=
  record
    [("tracks", ofList Performance.toDatum s.tracks),
      ("diagnostics", ofList Remark.toDatum s.remarks), ("settings", s.settings.toDatum)]

end SectionPerformance

end Rendition
