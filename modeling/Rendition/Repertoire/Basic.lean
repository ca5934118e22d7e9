import Rendition.Repertoire.Plugin
import Rendition.Script.Setters
import Rendition.Sound.Chord

namespace Rendition

/-- What a score may refer to: chord letters, kinds of annotation, named themes,
functions and plugins. -/
structure Repertoire where
  chords : Table Char Chord := ∅
  annotations : Table String AnnotationRule := ∅
  /-- The groups of marks, in the order of their declaration. -/
  groups : List String := []
  themes : Table String (List Symbol) := ∅
  functions : Table String Function := ∅
  plugins : Plugins := ∅

/-- Chords and annotations to be added to a repertoire, annotations sorted by kind. -/
structure Extension where
  chords : List (Char × Chord) := []
  annotations : List (String × AnnotationRule) := []

namespace Repertoire

def setChord (r : Repertoire) (letter : Char) (chord : Chord) : Repertoire :=
  { r with chords := r.chords.insert letter chord }

def declare (r : Repertoire) (kind : String) (rule : AnnotationRule) : Repertoire :=
  { r with
    annotations := r.annotations.insert kind rule
    groups := if r.groups.contains rule.group then r.groups else r.groups ++ [rule.group] }

def declareAll (r : Repertoire) (rules : List (String × AnnotationRule)) : Repertoire :=
  rules.foldl (fun r rule ↦ r.declare rule.1 rule.2) r

def extend (r : Repertoire) (extension : Extension) : Repertoire :=
  (extension.chords.foldl (fun r chord ↦ r.setChord chord.1 chord.2) r).declareAll
    extension.annotations

def defineTheme (r : Repertoire) (name : String) (content : List Symbol) : Repertoire :=
  { r with themes := r.themes.insert name content }

def defineFunction (r : Repertoire) (name : String) (function : Function) : Repertoire :=
  { r with functions := r.functions.insert name function }

def addPlugin (r : Repertoire) (name : String) (plugin : Plugin) : Repertoire :=
  let r := r.declareAll plugin.annotations
  { r with plugins := r.plugins.insert name plugin }

def standard : Repertoire where
  chords := .ofList Chord.standard
  functions := .ofList (Script.standard.map fun f ↦ (f.1, { body := f.2 }))

end Repertoire

end Rendition
