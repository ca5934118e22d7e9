import Rendition.Format.Datum
import Rendition.Repertoire.Basic

namespace Rendition

open Datum

def offset? (d : Datum) : Option Int32 := d.int32?

def depth? (d : Datum) : Option Nat := (d.integer? 0 Settings.traceLimit).map Int.toNat

namespace Overrides

def ofDatum? (d : Datum) : Option Overrides := do
  let fields ← d.record?
  return {
    key := ← optional fields "key" (list? offset?)
    volume := ← optional fields "volume" (list? real?)
    bar := ← optional fields "bar" real?
    beat := ← optional fields "beat" real?
    speed := ← optional fields "speed" real?
    staccato := ← optional fields "stac" (list? real?)
    accent := ← optional fields "accent" real?
    light := ← optional fields "light" real?
    trace := ← optional fields "trace" depth?
    duration := ← optional fields "duration" real?
    fadeIn := ← optional fields "fade-in" real?
    fadeOut := ← optional fields "fade-out" real?
    rev := ← optional fields "rev" real? }

end Overrides

namespace Settings

def ofDatum? (d : Datum) : Option Settings := do
  let fields ← d.record?
  let usual : Settings := {}
  return {
    key := ← orElse fields "key" (list? offset?) usual.key
    volume := ← orElse fields "volume" (list? real?) usual.volume
    bar := ← orElse fields "bar" real? usual.bar
    beat := ← orElse fields "beat" real? usual.beat
    speed := ← orElse fields "speed" real? usual.speed
    staccato := ← orElse fields "stac" (list? real?) usual.staccato
    accent := ← orElse fields "accent" real? usual.accent
    light := ← orElse fields "light" real? usual.light
    trace := ← orElse fields "trace" depth? usual.trace
    duration := ← orElse fields "duration" real? usual.duration
    fadeIn := ← orElse fields "fade-in" real? usual.fadeIn
    fadeOut := ← orElse fields "fade-out" real? usual.fadeOut
    rev := ← orElse fields "rev" real? usual.rev }

def toDatum (s : Settings) : Datum :=
  record
    [("key", ofList ofInt32 s.key), ("volume", ofList real s.volume), ("bar", real s.bar),
      ("beat", real s.beat), ("speed", real s.speed), ("stac", ofList real s.staccato),
      ("accent", real s.accent), ("light", real s.light), ("trace", ofNat s.trace),
      ("duration", real s.duration), ("fade-in", real s.fadeIn), ("fade-out", real s.fadeOut),
      ("rev", real s.rev)]

end Settings

namespace ChordRule

def ofDatum? (d : Datum) : Option ChordRule := do
  let fields ← d.record?
  return {
    head := ← required fields "head" offset?
    tail := ← required fields "tail" offset?
    delta := ← required fields "delta" offset? }

def toDatum (rule : ChordRule) : Datum :=
  list [ofInt32 rule.head, ofInt32 rule.tail, ofInt32 rule.delta]

end ChordRule

namespace AnnotationRule

def ofDatum? (d : Datum) : Option AnnotationRule := do
  let fields ← d.record?
  return {
    preserve := ← orElse fields "preserve" bool? false
    group := ← required fields "class" word? }

def toDatum (rule : AnnotationRule) : Datum :=
  record [("preserve", bool rule.preserve), ("class", text rule.group)]

end AnnotationRule

namespace Extension

def chord? (field : String × Datum) : Option (Char × Chord) := do
  match field.1.toList with
  | [letter] => return (letter, ← list? ChordRule.ofDatum? field.2)
  | _ => none

def rule? (field : String × Datum) : Option (String × AnnotationRule) := do
  return (field.1, ← AnnotationRule.ofDatum? field.2)

def sorted (rules : List (String × AnnotationRule)) : List (String × AnnotationRule) :=
  rules.mergeSort fun a b ↦ decide (a.1 ≤ b.1)

def ofDatum? (d : Datum) : Option Extension := do
  let fields ← d.record?
  return {
    chords := ← orElse fields "chords" (fun d ↦ d.record?.bind (·.mapM chord?)) []
    annotations :=
      sorted (← orElse fields "annotations" (fun d ↦ d.record?.bind (·.mapM rule?)) []) }

end Extension

end Rendition
