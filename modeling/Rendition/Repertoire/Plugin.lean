import Rendition.Play.Passage

namespace Rendition

structure AnnotationRule where
  preserve : Bool := false
  group : String
  deriving DecidableEq, Repr

/-- Functions that take part at fixed points of a rendition. -/
structure Plugin where
  annotations : List (String × AnnotationRule) := []
  /-- Applied to the settings before the first section. -/
  setup : Settings → Settings := id
  /-- Applied to the marks of a passage when an inner one has been added to it. -/
  collect : Passage → Marks → Marks := fun _ marks ↦ marks
  /-- Applied to the events that a note starts. -/
  revise : Settings → List Event → List Event := fun _ events ↦ events
  revise_length : ∀ settings events, (revise settings events).length = events.length := by
    intros; rfl
  /-- Applied to each finished track. -/
  complete : Performance → Performance := id

/-- Named plugins, each applied to what the one before it left. -/
abbrev Plugins := Table String Plugin

namespace Plugins

def setup (plugins : Plugins) (settings : Settings) : Settings :=
  plugins.entries.foldl (fun s p ↦ p.2.setup s) settings

def collect (plugins : Plugins) (passage : Passage) (marks : Marks) : Marks :=
  plugins.entries.foldl (fun m p ↦ p.2.collect passage m) marks

def revise (plugins : Plugins) (settings : Settings) (events : List Event) : List Event :=
  plugins.entries.foldl (fun es p ↦ p.2.revise settings es) events

def complete (plugins : Plugins) (performance : Performance) : Performance :=
  plugins.entries.foldl (fun t p ↦ p.2.complete t) performance

theorem revise_length (plugins : Plugins) (settings : Settings) (events : List Event) :
    (plugins.revise settings events).length = events.length := by
  unfold revise
  generalize plugins.entries = entries
  induction entries generalizing events with
  | nil => rfl
  | cons p rest ih => rw [List.foldl_cons, ih, p.2.revise_length]

end Plugins

end Rendition
