import Rendition.Proofs.Play.Frame

namespace Rendition

structure Progress.Still (voices : List Float) (p : Progress) : Prop where
  duration : p.duration = 0
  beatCount : p.beatCount = 0
  voices : p.voices = voices

namespace Scope

variable {voices : List Float} {scope : Scope} (h : scope.progress.Still voices)
include h

theorem still_atIndex (index : Nat) : (scope.atIndex index).progress.Still voices :=
  ⟨h.duration, h.beatCount, h.voices⟩

theorem still_endBar (terminal : Bool) : (scope.endBar terminal).progress.Still voices := by
  rw [endBar_eq]
  split
  · exact h
  · exact ⟨h.duration, h.beatCount, h.voices⟩

theorem still_playBarLine (bar : BarLine) : (scope.playBarLine bar).progress.Still voices := by
  have hend := still_endBar h bar.terminal
  unfold playBarLine
  dsimp only
  split
  · unfold Progress.nextVoice
    rw [hend.duration, hend.beatCount]
    exact ⟨rfl, rfl, hend.voices⟩
  · exact hend

theorem still_playMarking (stage : Stage) (kind : String) :
    (scope.playMarking stage kind).progress.Still voices :=
  ⟨h.duration, h.beatCount, h.voices⟩

theorem still_joinBars (inner : Progress) : (scope.joinBars inner).progress.Still voices := by
  rw [joinBars_eq]
  split
  · refine ⟨?_, ?_, ?_⟩
    · rw [duration_lengthen]
      exact h.duration
    · rw [beatCount_lengthen]
      exact h.beatCount
    · rw [voices_lengthen]
      exact h.voices
  · exact ⟨h.duration, h.beatCount, h.voices⟩

theorem still_absorb (stage : Stage) {passage : Passage} (hp : passage.progress.Still []) :
    (scope.absorb stage passage).progress.Still voices := by
  obtain ⟨hduration, hbeats, hvoices⟩ := still_joinBars h passage.progress
  refine ⟨?_, ?_, hvoices⟩
  · change (scope.joinBars passage.progress).progress.duration + passage.progress.duration = 0
    rw [hduration, hp.duration]
    decide +kernel
  · change (scope.joinBars passage.progress).progress.beatCount + passage.progress.beatCount = 0
    rw [hbeats, hp.beatCount]
    decide +kernel

end Scope

theorem Scope.still_of_overlay (scope : Scope) {bar : BarLine} (h : bar.overlay = true) :
    ∃ voices, (scope.playBarLine bar).progress.Still voices := by
  unfold playBarLine
  rw [if_pos h]
  exact ⟨_, rfl, rfl, rfl⟩

theorem Scope.still_conclude {scope : Scope} (h : scope.progress.Still []) (s : Session) :
    (scope.conclude s).progress.Still [] := by
  rw [conclude_eq h.voices]
  exact ⟨h.duration, h.beatCount, h.voices⟩

end Rendition
