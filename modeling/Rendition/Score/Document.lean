import Rendition.Score.Symbol
import Rendition.Table

namespace Rendition

/-- The pitches a name stands for: sounding as they are, or read like written degrees. -/
inductive Voicing where
  | fixed (offsets : List Int32)
  | degrees (steps : List UInt8)
  deriving DecidableEq, Repr

structure NamedPitch where
  name : String
  voicing : Voicing
  deriving DecidableEq, Repr

structure Instrument where
  name : String := "Piano"
  opening : List Symbol := []
  pitches : List NamedPitch := []

abbrev PitchNames := Table String Voicing

def Instrument.pitchNames (instrument : Instrument) : PitchNames :=
  .ofList (instrument.pitches.map fun p ↦ (p.name, p.voicing))

/-- A track of a section: its instruments play its content in turn, and a name makes it a theme. -/
structure Track where
  id : String := ""
  name : Option String := none
  plays : Bool := true
  instruments : List Instrument := []
  content : List Symbol := []

def Track.players (track : Track) : List Instrument :=
  if !track.plays then [] else if track.instruments.isEmpty then [{}] else track.instruments

structure Section where
  /-- Calls whose settings stay for the sections that follow. -/
  prolog : List Call := []
  settings : List Call := []
  tracks : List Track := []

structure Score where
  sections : List Section := []

end Rendition
