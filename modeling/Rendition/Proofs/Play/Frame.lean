import Rendition.Play.Scope

namespace Rendition

/-- Whether a finding is about lengths, which depend on how passages lie inside one another. -/
def Finding.isMetric : Finding → Bool
  | .barLength .. | .fadeOverLong .. | .diffDuration .. => true
  | _ => false

namespace Progress

def closed (p : Progress) : Progress :=
  { p with
    firstBarTime := if p.barCount == 0 then p.duration else p.firstBarTime
    barCount := p.barCount + 1
    barLast := 0 }

def joined (p inner : Progress) : Progress :=
  { p with
    barFirst := if p.barCount == 0 then p.beatsOpen + inner.barFirst else p.barFirst
    firstBarTime := if p.barCount == 0 then p.duration + inner.firstBarTime else p.firstBarTime
    barCount := p.barCount + 1 + (inner.barCount - 1)
    barLast := inner.barLast }

end Progress

namespace Scope

variable (scope : Scope) (stage : Stage)

@[simp] theorem atIndex_settings (i : Nat) : (scope.atIndex i).settings = scope.settings := rfl
@[simp] theorem atIndex_events (i : Nat) : (scope.atIndex i).events = scope.events := rfl
@[simp] theorem atIndex_remarks (i : Nat) : (scope.atIndex i).remarks = scope.remarks := rfl
@[simp] theorem atIndex_traceStart (i : Nat) : (scope.atIndex i).traceStart = scope.traceStart :=
  rfl
@[simp] theorem atIndex_nested (i : Nat) : (scope.atIndex i).nested = scope.nested := rfl
@[simp] theorem atIndex_after (i : Nat) : (scope.atIndex i).progress.after = scope.progress.after :=
  rfl

@[simp] theorem remark_settings (f : Finding) : (scope.remark f).settings = scope.settings := rfl
@[simp] theorem remark_events (f : Finding) : (scope.remark f).events = scope.events := rfl
@[simp] theorem remark_progress (f : Finding) : (scope.remark f).progress = scope.progress := rfl
@[simp] theorem remark_traceStart (f : Finding) : (scope.remark f).traceStart = scope.traceStart :=
  rfl
@[simp] theorem remark_nested (f : Finding) : (scope.remark f).nested = scope.nested := rfl

/-- Only the counters have changed, and remarks have been made on them. -/
structure Recounts (scope scope' : Scope) : Prop where
  settings : scope'.settings = scope.settings
  events : scope'.events = scope.events
  marks : scope'.marks = scope.marks
  traceStart : scope'.traceStart = scope.traceStart
  nested : scope'.nested = scope.nested
  after : scope'.progress.after = scope.progress.after
  remarks : ∃ added, scope'.remarks = scope.remarks ++ added ∧ ∀ r ∈ added, r.finding.isMetric

namespace Recounts

theorem refl : scope.Recounts scope :=
  ⟨rfl, rfl, rfl, rfl, rfl, rfl, [], by simp, by simp⟩

variable {scope}

theorem trans {scope' scope'' : Scope} (h : scope.Recounts scope') (h' : scope'.Recounts scope'') :
    scope.Recounts scope'' where
  settings := h'.settings.trans h.settings
  events := h'.events.trans h.events
  marks := h'.marks.trans h.marks
  traceStart := h'.traceStart.trans h.traceStart
  nested := h'.nested.trans h.nested
  after := h'.after.trans h.after
  remarks := by
    obtain ⟨added, he, hm⟩ := h.remarks
    obtain ⟨added', he', hm'⟩ := h'.remarks
    refine ⟨added ++ added', by rw [he', he, List.append_assoc], ?_⟩
    intro r hr
    exact (List.mem_append.mp hr).elim (hm r) (hm' r)

theorem setProgress {scope' : Scope} (h : scope.Recounts scope') {p : Progress}
    (ha : p.after = scope'.progress.after) : scope.Recounts { scope' with progress := p } where
  settings := h.settings
  events := h.events
  marks := h.marks
  traceStart := h.traceStart
  nested := h.nested
  after := ha.trans h.after
  remarks := h.remarks

theorem remark {scope' : Scope} (h : scope.Recounts scope') {finding : Finding}
    (hf : finding.isMetric) :
    scope.Recounts (scope'.remark finding) where
  settings := h.settings
  events := h.events
  marks := h.marks
  traceStart := h.traceStart
  nested := h.nested
  after := h.after
  remarks := by
    obtain ⟨added, he, hm⟩ := h.remarks
    refine ⟨added ++ [.located finding scope'.place], by simp [Scope.remark, he], ?_⟩
    intro r hr
    rcases List.mem_append.mp hr with hr | hr
    · exact hm r hr
    · obtain rfl := List.mem_singleton.mp hr
      exact hf

end Recounts

def barRemarks (beats time : Float) : List Remark :=
  if scope.isFull beats then []
  else [.located (.barLength scope.settings.bar beats time) ⟨scope.progress.barCount + 1,
    scope.progress.index⟩]

theorem checkBar_eq (beats time : Float) : scope.checkBar beats time =
    { scope with
      remarks := scope.remarks ++ if scope.isFull beats then []
        else [.located (.barLength scope.settings.bar beats time) scope.place] } := by
  unfold checkBar
  split
  · simp
  · rfl

theorem endBar_eq (terminal : Bool) : scope.endBar terminal =
    if scope.progress.beatsOpen == 0 then scope
    else { scope with
      progress := scope.progress.closed
      remarks := scope.remarks ++ if scope.progress.barCount == 0 && scope.nested ||
        terminal then []
        else scope.barRemarks scope.progress.beatsOpen scope.progress.duration } := by
  unfold endBar
  dsimp only
  split
  · rfl
  · cases scope.progress.barCount == 0 && scope.nested || terminal with
    | true => simp [Progress.closed]
    | false =>
      simp only [checkBar_eq, Bool.false_eq_true, if_false]
      rfl

theorem joinBars_eq (inner : Progress) : scope.joinBars inner =
    if inner.barCount = 0 then { scope with progress := scope.progress.lengthen inner.barFirst }
    else { scope with
      progress := scope.progress.joined inner
      remarks := scope.remarks ++ if scope.progress.barCount == 0 && scope.nested then []
        else scope.barRemarks (scope.progress.beatsOpen + inner.barFirst)
          (scope.progress.duration + inner.firstBarTime) } := by
  unfold joinBars
  dsimp only
  split
  · rfl
  · cases scope.progress.barCount == 0 && scope.nested with
    | true => simp [Progress.joined]
    | false =>
      simp only [checkBar_eq, Bool.false_eq_true, if_false]
      rfl

variable {scope} in
theorem isMetric_of_mem_barRemarks {beats time : Float} {r : Remark}
    (h : r ∈ scope.barRemarks beats time) :
    r.finding.isMetric := by
  unfold barRemarks at h
  split at h
  · cases h
  · obtain rfl := List.mem_singleton.mp h
    rfl

theorem endBar_recounts (terminal : Bool) : scope.Recounts (scope.endBar terminal) := by
  rw [endBar_eq]
  split
  · exact .refl scope
  · refine ⟨rfl, rfl, rfl, rfl, rfl, rfl, _, rfl, ?_⟩
    intro r hr
    split at hr
    · cases hr
    · exact isMetric_of_mem_barRemarks hr

theorem playBarLine_recounts (bar : BarLine) : scope.Recounts (scope.playBarLine bar) := by
  unfold playBarLine
  simp only
  split
  · refine .setProgress (scope.endBar_recounts bar.terminal) ?_
    unfold Progress.nextVoice
    simp only
    split <;> rfl
  · exact scope.endBar_recounts bar.terminal

theorem settleVoices_recounts : scope.Recounts scope.settleVoices := by
  have hn : scope.progress.nextVoice.after = scope.progress.after := by
    unfold Progress.nextVoice
    simp only
    split <;> rfl
  unfold settleVoices
  simp only
  split
  · exact .refl scope
  · refine .setProgress ?_ rfl
    have h : scope.Recounts
        { scope with progress := { scope.progress.nextVoice with voices := [] } } :=
      .setProgress (.refl scope) hn
    split
    · exact h.remark rfl
    · exact h

theorem joinBars_recounts (inner : Progress) : scope.Recounts (scope.joinBars inner) := by
  rw [joinBars_eq]
  split
  · refine .setProgress (.refl scope) ?_
    unfold Progress.lengthen
    split <;> rfl
  · refine ⟨rfl, rfl, rfl, rfl, rfl, rfl, _, rfl, ?_⟩
    intro r hr
    split at hr
    · cases hr
    · exact isMetric_of_mem_barRemarks hr

@[simp] theorem barCount_nextVoice (p : Progress) : p.nextVoice.barCount = p.barCount := by
  unfold Progress.nextVoice
  dsimp only
  split <;> rfl

@[simp] theorem beatsOpen_nextVoice (p : Progress) : p.nextVoice.beatsOpen = p.beatsOpen := by
  unfold Progress.nextVoice
  dsimp only
  split <;> rfl

theorem zero_beq_zero : (0 : Float) == 0 := by decide +kernel

theorem beatsOpen_playBarLine (line : BarLine) :
    (scope.playBarLine line).progress.beatsOpen == 0 := by
  have hend : (scope.endBar line.terminal).progress.beatsOpen == 0 := by
    rw [endBar_eq]
    split
    next h => exact h
    next =>
      have hclosed : scope.progress.closed.beatsOpen = 0 := if_neg (Nat.succ_ne_zero _)
      rw [hclosed]
      exact zero_beq_zero
  unfold playBarLine
  dsimp only
  split
  · rw [beatsOpen_nextVoice]
    exact hend
  · exact hend

section Lengthen

variable (p : Progress) (beats : Float)

theorem beatsOpen_lengthen : (p.lengthen beats).beatsOpen = p.beatsOpen + beats := by
  unfold Progress.lengthen
  split <;> simp [Progress.beatsOpen, *]

@[simp] theorem barCount_lengthen : (p.lengthen beats).barCount = p.barCount := by
  unfold Progress.lengthen
  split <;> rfl

@[simp] theorem duration_lengthen : (p.lengthen beats).duration = p.duration := by
  unfold Progress.lengthen
  split <;> rfl

@[simp] theorem beatCount_lengthen : (p.lengthen beats).beatCount = p.beatCount := by
  unfold Progress.lengthen
  split <;> rfl

@[simp] theorem voices_lengthen : (p.lengthen beats).voices = p.voices := by
  unfold Progress.lengthen
  split <;> rfl

@[simp] theorem firstBarTime_lengthen : (p.lengthen beats).firstBarTime = p.firstBarTime := by
  unfold Progress.lengthen
  split <;> rfl

theorem barFirst_lengthen (h : p.barCount ≠ 0) : (p.lengthen beats).barFirst = p.barFirst := by
  unfold Progress.lengthen
  rw [if_neg h]

end Lengthen

@[simp] theorem playMarking_settings (kind : String) : (scope.playMarking stage kind).settings =
    scope.settings := rfl
@[simp] theorem playMarking_events (kind : String) :
    (scope.playMarking stage kind).events = scope.events := rfl
@[simp] theorem playMarking_remarks (kind : String) :
    (scope.playMarking stage kind).remarks = scope.remarks := rfl

@[simp] theorem absorb_settings (passage : Passage) :
    (scope.absorb stage passage).settings = scope.settings :=
  (scope.joinBars_recounts passage.progress).settings

@[simp] theorem absorb_events (passage : Passage) :
    (scope.absorb stage passage).events = scope.events ++ passage.events := by
  change (scope.joinBars passage.progress).events ++ _ = _
  rw [(scope.joinBars_recounts passage.progress).events]

section Absorb

variable (inner : Progress) (passage : Passage)

theorem joinBars_progress : (scope.joinBars inner).progress =
    if inner.barCount = 0 then scope.progress.lengthen inner.barFirst
    else scope.progress.joined inner := by
  rw [joinBars_eq]
  split <;> rfl

theorem duration_absorb : (scope.absorb stage passage).progress.duration =
    scope.progress.duration + passage.progress.duration := by
  have hjoin : (scope.joinBars passage.progress).progress.duration = scope.progress.duration := by
    rw [joinBars_progress]
    split
    · exact duration_lengthen ..
    · rfl
  exact congrArg (· + _) hjoin

theorem voices_absorb : (scope.absorb stage passage).progress.voices = scope.progress.voices := by
  change (scope.joinBars passage.progress).progress.voices = _
  rw [joinBars_progress]
  split
  · exact voices_lengthen ..
  · rfl

theorem barCount_absorb : (scope.absorb stage passage).progress.barCount =
    scope.progress.barCount + passage.progress.barCount := by
  change (scope.joinBars passage.progress).progress.barCount = _
  rw [joinBars_progress]
  split
  next h => rw [barCount_lengthen, h, Nat.add_zero]
  next h =>
    change scope.progress.barCount + 1 + (passage.progress.barCount - 1) = _
    omega

theorem firstBarTime_absorb : (scope.absorb stage passage).progress.firstBarTime =
    if scope.progress.barCount = 0 ∧ passage.progress.barCount ≠ 0 then
      scope.progress.duration + passage.progress.firstBarTime
    else scope.progress.firstBarTime := by
  change (scope.joinBars passage.progress).progress.firstBarTime = _
  rw [joinBars_progress]
  split
  next h => simp [h]
  next h => simp [Progress.joined, h]

theorem beatsOpen_absorb : (scope.absorb stage passage).progress.beatsOpen =
    if passage.progress.barCount = 0 then scope.progress.beatsOpen + passage.progress.beatsOpen
    else passage.progress.beatsOpen := by
  change (scope.joinBars passage.progress).progress.beatsOpen = _
  rw [joinBars_progress]
  split
  next h =>
    have hopen : passage.progress.beatsOpen = passage.progress.barFirst := if_pos h
    rw [beatsOpen_lengthen, hopen]
  next h =>
    have hopen : passage.progress.beatsOpen = passage.progress.barLast := if_neg h
    have hjoined : (scope.progress.joined passage.progress).barCount ≠ 0 := by
      simp [Progress.joined]
    rw [hopen, Progress.beatsOpen, if_neg hjoined]
    rfl

end Absorb

@[simp] theorem conclude_events (s : Session) : (scope.conclude s).events = scope.events :=
  scope.settleVoices_recounts.events

variable {scope} in
theorem settleVoices_eq (h : scope.progress.voices = []) : scope.settleVoices = scope := by
  unfold settleVoices
  rw [h]
  rfl

variable {scope} in
theorem conclude_eq (h : scope.progress.voices = []) (s : Session) : scope.conclude s =
    { events := scope.events
      marks := scope.marks
      remarks := scope.remarks
      progress :=
        { scope.progress with trace := s.trace.drop scope.traceStart, tieLeft := s.tieLeft } } := by
  unfold conclude
  rw [settleVoices_eq h]

end Scope

end Rendition
