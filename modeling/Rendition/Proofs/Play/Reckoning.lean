import Rendition.Proofs.Play.Bars
import Rendition.Proofs.Play.Nesting
import Rendition.Proofs.Play.Sums
import Rendition.Proofs.Sound.Findings

namespace Rendition

open Number

noncomputable def Number.ofUnits (n : Int) : Float :=
  open Classical in if h : ∃ f, Reads f n then h.choose else 0

theorem Number.Reads.ofUnits_eq {f : Float} {n : Int} (h : Reads f n) : ofUnits n = f := by
  have hexists : ∃ f, Reads f n := ⟨f, h⟩
  unfold ofUnits
  rw [dif_pos hexists]
  exact hexists.choose_spec.eq h

theorem Number.Reads.reads_ofUnits {f : Float} {n : Int} (h : Reads f n) : Reads (ofUnits n) n :=
  h.ofUnits_eq ▸ h

def shortfall (settings : Settings) (beats time : Float) : List (Float × Float × Float) :=
  if beats == 0 || (beats - settings.bar).abs < barTolerance then []
  else [(settings.bar, beats, time)]

noncomputable def shortfalls (settings : Settings) (closed : List (Int × Int)) :
    List (Float × Float × Float) :=
  closed.flatMap fun bar ↦ shortfall settings (ofUnits bar.1) (ofUnits bar.2)

@[simp] theorem shortfalls_append (settings : Settings) (closed more : List (Int × Int)) :
    shortfalls settings (closed ++ more) = shortfalls settings closed ++ shortfalls settings more :=
  List.flatMap_append

@[simp] theorem barLengths_append (remarks more : List Remark) :
    barLengths (remarks ++ more) = barLengths remarks ++ barLengths more := List.filterMap_append

theorem barLengths_eq_nil {remarks : List Remark} (h : ∀ r ∈ remarks, r.finding.isMetric = false) :
    barLengths remarks = [] := by
  refine List.filterMap_eq_nil_iff.mpr ?_
  intro r hr
  have hmetric := h r hr
  cases hf : r.finding <;> rw [hf] at hmetric <;> first | rfl | cases hmetric

theorem barLengths_within (remarks : List Remark) (place : Place) (time : Float) :
    barLengths (remarks.map (·.within place time)) =
      (barLengths remarks).map fun bar ↦ (bar.1, bar.2.1, bar.2.2 + time) := by
  unfold barLengths
  rw [List.filterMap_map, List.map_filterMap]
  refine congrArg (List.filterMap · remarks) (funext ?_)
  intro r
  obtain ⟨finding, path⟩ := r
  cases finding <;> rfl

structure Passage.Tells (passage : Passage) (settings : Settings) (bars : Bars) : Prop where
  count : passage.progress.barCount = bars.closed.length
  beats : Reads passage.progress.beatsOpen bars.beats
  time : Reads passage.progress.duration bars.time
  first : ∀ bar, bars.closed.head? = some bar →
    Reads passage.progress.barFirst bar.1 ∧ Reads passage.progress.firstBarTime bar.2
  ends : ∀ bar ∈ bars.closed, Reads (ofUnits bar.2) bar.2
  remarks : barLengths passage.remarks = shortfalls settings bars.closed.tail

namespace Scope

variable {scope : Scope} {bars : Bars}

theorem barLengths_barRemarks (scope : Scope) (beats time : Float) :
    barLengths (scope.barRemarks beats time) = shortfall scope.settings beats time := by
  unfold barRemarks isFull shortfall
  split <;> rfl

/-- What the passage around needs to know of the bars of an inner one. -/
structure Defers (scope : Scope) (bars : Bars) : Prop where
  first : ∀ bar, bars.closed.head? = some bar →
    Reads scope.progress.barFirst bar.1 ∧ Reads scope.progress.firstBarTime bar.2
  ends : ∀ bar ∈ bars.closed, Reads (ofUnits bar.2) bar.2

/-- The counters of a scope stand for these bars, and they are what it remarks on. The first bar of
an inner passage is left to the passage around. -/
structure Reckons (scope : Scope) (bars : Bars) : Prop where
  count : scope.progress.barCount = bars.closed.length
  beats : Reads scope.progress.beatsOpen bars.beats
  time : Reads scope.progress.duration bars.time
  voices : scope.progress.voices = []
  defers : scope.nested → scope.Defers bars
  remarks : barLengths scope.remarks =
    shortfalls scope.settings (if scope.nested then bars.closed.tail else bars.closed)

theorem Reckons.atIndex (h : scope.Reckons bars) (index : Nat) :
    (scope.atIndex index).Reckons bars where
  count := h.count
  beats := h.beats
  time := h.time
  voices := h.voices
  defers := fun hn ↦ ⟨(h.defers hn).first, (h.defers hn).ends⟩
  remarks := h.remarks

def closing (scope : Scope) : Scope :=
  { scope with progress := { scope.progress with
    firstBarTime := if scope.progress.barCount == 0 then scope.progress.duration
      else scope.progress.firstBarTime
    barCount := scope.progress.barCount + 1
    barLast := 0 } }

theorem endBar_of_ne (h : (scope.progress.beatsOpen == 0) = false) :
    (scope.endBar false).progress = scope.closing.progress ∧
    (scope.endBar false).settings = scope.settings ∧
      (scope.endBar false).nested = scope.nested ∧
      barLengths (scope.endBar false).remarks = barLengths scope.remarks ++
        if scope.progress.barCount == 0 && scope.nested then []
        else shortfall scope.settings scope.progress.beatsOpen scope.progress.duration := by
  rw [endBar_eq, h, if_neg Bool.false_ne_true, Bool.or_false]
  refine ⟨rfl, rfl, rfl, ?_⟩
  rw [barLengths_append, ← barLengths_barRemarks]
  split <;> rfl

theorem shortfalls_singleton {settings : Settings} {beats time : Float} {n m : Int}
    (hb : Reads beats n) (ht : Reads time m) :
    shortfalls settings [(n, m)] = shortfall settings beats time := by
  simp [shortfalls, hb.ofUnits_eq, ht.ofUnits_eq]

theorem Defers.close (h : scope.Defers bars) (hcount : scope.progress.barCount = bars.closed.length)
    (hbeats : Reads scope.progress.beatsOpen bars.beats)
    (htime : Reads scope.progress.duration bars.time) (hne : bars.beats ≠ 0) :
    scope.closing.Defers bars.close := by
  have hclosed := Bars.close_closed_of_ne hne
  constructor
  · intro bar hhead
    rw [hclosed, List.head?_append] at hhead
    cases hb : bars.closed with
    | nil =>
      -- The bar being closed is the first: it is what the passage around will ask for.
      rw [hb] at hhead hcount
      obtain rfl : (bars.beats, bars.time) = bar := Option.some.inj hhead
      have hzero : scope.progress.barCount = 0 := hcount
      have hfirst : scope.progress.beatsOpen = scope.progress.barFirst := by
        simp [Progress.beatsOpen, hzero]
      exact ⟨hfirst ▸ hbeats, by simpa [closing, hzero] using htime⟩
    | cons first rest =>
      have hsome : scope.progress.barCount ≠ 0 := by simp [hcount, hb]
      obtain ⟨hfirst, hend⟩ := h.first bar (by simpa [hb] using hhead)
      exact ⟨hfirst, by simpa [closing, hsome] using hend⟩
  · intro bar hmem
    rw [hclosed] at hmem
    obtain hmem | hmem := List.mem_append.mp hmem
    · exact h.ends bar hmem
    · obtain rfl := List.mem_singleton.mp hmem
      exact htime.reads_ofUnits

theorem Reckons.close (h : scope.Reckons bars) : (scope.playBarLine {}).Reckons bars.close := by
  change (scope.endBar false).Reckons bars.close
  have hzero := beq_zero h.beats.units?
  by_cases hz : bars.beats = 0
  · have hend : scope.endBar false = scope := by simp [endBar, hzero, hz]
    rw [hend, Bars.close_of_eq_zero hz]
    exact h
  · rw [decide_eq_false hz] at hzero
    obtain ⟨hprogress, hsettings, hnested, hremarks⟩ := endBar_of_ne hzero
    have hclosed := Bars.close_closed_of_ne hz
    constructor
    · rw [hprogress, hclosed, List.length_append]
      exact congrArg (· + 1) h.count
    · rw [hprogress, Bars.close_beats]
      exact reads_zero
    · rw [hprogress, Bars.close_time]
      exact h.time
    · rw [hprogress]
      exact h.voices
    · intro hn
      rw [hnested] at hn
      have hdefers := (h.defers hn).close h.count h.beats h.time hz
      exact ⟨hprogress ▸ hdefers.first, hdefers.ends⟩
    · rw [hremarks, hsettings, hnested, hclosed, h.remarks]
      have hlast : shortfalls scope.settings [(bars.beats, bars.time)] =
          shortfall scope.settings scope.progress.beatsOpen scope.progress.duration :=
        shortfalls_singleton h.beats h.time
      cases hn : scope.nested with
      | false => simp [hlast]
      | true =>
        cases hb : bars.closed with
        | nil => simp [h.count, hb, shortfalls]
        | cons first rest =>
          have hsome : scope.progress.barCount ≠ 0 := by simp [h.count, hb]
          simp [hsome, hlast]

theorem Reckons.note (h : scope.Reckons bars) {stage : Stage} {s : Session} {note : Note}
    (hsums : Exactly (scope.noteSums note)) :
    (scope.noted stage s note).1.Reckons (bars.add scope.settings (.note note)) := by
  obtain ⟨hbeats, htime⟩ : ExactSum scope.progress.beatsOpen (note.timing scope.settings).beat ∧
      ExactSum scope.progress.duration (note.timing scope.settings).nominal := by
    simpa [Exactly, noteSums] using hsums
  obtain ⟨n, hn, hbeats⟩ := h.beats.add hbeats
  obtain ⟨m, hm, htime⟩ := h.time.add htime
  have hweight : note.weight scope.settings = (n, m) := by simp [Note.weight, hn, hm]
  have hprogress : (scope.noted stage s note).1.progress =
      { scope.progress with
        duration := scope.progress.duration + (note.timing scope.settings).nominal
        beatCount := scope.progress.beatCount + (note.timing scope.settings).beat }.lengthen
        (note.timing scope.settings).beat := rfl
  constructor
  · rw [hprogress, barCount_lengthen]
    exact h.count
  · rw [hprogress, beatsOpen_lengthen, Bars.add, hweight]
    exact hbeats
  · rw [hprogress, duration_lengthen, Bars.add, hweight]
    exact htime
  · rw [hprogress, voices_lengthen]
    exact h.voices
  · intro hnested
    refine ⟨fun bar hhead ↦ ?_, (h.defers hnested).ends⟩
    have hne : scope.progress.barCount ≠ 0 := by
      rw [h.count]
      exact fun h0 ↦ by simp [Bars.add, List.length_eq_zero_iff.mp h0] at hhead
    obtain ⟨hfirst, htime⟩ := (h.defers hnested).first bar hhead
    rw [hprogress, barFirst_lengthen, firstBarTime_lengthen]
    · exact ⟨hfirst, htime⟩
    · exact hne
  · have hremarks : (scope.noted stage s note).1.remarks =
        scope.remarks ++ (note.play stage scope.settings s scope.progress).1.remarks := rfl
    rw [hremarks, barLengths_append, barLengths_eq_nil fun r ↦ Note.isMetric_of_mem_play,
      List.append_nil]
    exact h.remarks

theorem joinBars_of_ne (hnested : scope.nested = false) {inner : Progress}
    (hne : inner.barCount ≠ 0) :
    (∃ barFirst firstBarTime, (scope.joinBars inner).progress =
      { scope.progress with
        barFirst, firstBarTime
        barCount := scope.progress.barCount + inner.barCount
        barLast := inner.barLast }) ∧
    barLengths (scope.joinBars inner).remarks = barLengths scope.remarks ++
      shortfall scope.settings (scope.progress.beatsOpen + inner.barFirst)
        (scope.progress.duration + inner.firstBarTime) := by
  have hcount : scope.progress.barCount + 1 + (inner.barCount - 1) = scope.progress.barCount +
      inner.barCount := by omega
  rw [joinBars_eq, if_neg hne, hnested, Bool.and_false, if_neg Bool.false_ne_true,
    Progress.joined, hcount]
  refine ⟨⟨_, _, rfl⟩, ?_⟩
  rw [barLengths_append, barLengths_barRemarks]

theorem shortfalls_later {settings : Settings} {closed : List (Int × Int)} {time : Float} {n : Int}
    (hends : ∀ bar ∈ closed, Reads (ofUnits bar.2) bar.2) (ht : units? time = some n)
    (hsums : Exactly ((shortfalls settings closed).map fun bar ↦ (bar.2.2, time))) :
    shortfalls settings (Bars.later n closed) =
      (shortfalls settings closed).map fun bar ↦ (bar.1, bar.2.1, bar.2.2 + time) := by
  unfold shortfalls Bars.later at *
  rw [List.flatMap_map, List.map_flatMap]
  refine List.flatMap_congr ?_
  intro bar hmem
  by_cases hfull : ofUnits bar.1 == 0 || (ofUnits bar.1 - settings.bar).abs < barTolerance
  · simp [shortfall, hfull]
  · have hshort : ∀ time, shortfall settings (ofUnits bar.1) time =
        [(settings.bar, ofUnits bar.1, time)] :=
      fun time ↦ if_neg hfull
    have hsum : ExactSum (ofUnits bar.2) time := by
      refine hsums (ofUnits bar.2,
        time) (List.mem_map_of_mem (a := (settings.bar, ofUnits bar.1, ofUnits bar.2)) ?_)
      exact List.mem_flatMap.mpr ⟨bar, hmem, by simp [hshort]⟩
    obtain ⟨m, hm, hadd⟩ := (hends bar hmem).add hsum
    obtain rfl : n = m := Option.some.inj (ht.symm.trans hm)
    rw [hshort, hshort, hadd.ofUnits_eq]
    rfl

theorem Reckons.conclude (h : scope.Reckons bars) (hn : scope.nested) (s : Session) :
    (scope.conclude s).Tells scope.settings bars := by
  rw [conclude_eq h.voices]
  have hremarks := h.remarks
  rw [if_pos hn] at hremarks
  exact ⟨h.count, h.beats, h.time, (h.defers hn).first, (h.defers hn).ends, hremarks⟩

section Absorb

variable {passage : Passage} {inner : Bars} {stage : Stage}

theorem Reckons.absorb_nil (h : scope.Reckons bars) (hnested : scope.nested = false)
    (hi : passage.Tells scope.settings inner) (hc : inner.closed = [])
    (hsums : Exactly (scope.passageSums passage)) :
    (scope.absorb stage passage).Reckons
      { bars with beats := bars.beats + inner.beats, time := bars.time + inner.time } := by
  simp only [passageSums, Exactly, List.cons_append, List.forall_mem_cons] at hsums
  obtain ⟨hbeats, htime, -⟩ := hsums
  obtain ⟨n, hn, hbeats⟩ := h.beats.add hbeats
  obtain ⟨m, hm, htime⟩ := h.time.add htime
  have hzero : passage.progress.barCount = 0 := by rw [hi.count, hc]; rfl
  have hopen : passage.progress.beatsOpen = passage.progress.barFirst := if_pos hzero
  obtain rfl : inner.beats = n := Option.some.inj ((hopen ▸ hi.beats.units?).symm.trans hn)
  obtain rfl : inner.time = m := Option.some.inj (hi.time.units?.symm.trans hm)
  have hnone : barLengths passage.remarks = [] := by rw [hi.remarks, hc]; rfl
  unfold Scope.absorb joinBars
  simp only [if_pos hzero]
  constructor
  · simpa using h.count
  · change Reads (scope.progress.lengthen passage.progress.barFirst).beatsOpen _
    rw [beatsOpen_lengthen]
    exact hbeats
  · simpa using htime
  · simpa using h.voices
  · exact fun hn ↦ absurd (hnested.symm.trans hn) Bool.false_ne_true
  · simp only [barLengths_append, barLengths_within, hnone, List.map_nil, List.append_nil]
    exact h.remarks

theorem Reckons.absorb_cons (h : scope.Reckons bars) (hnested : scope.nested = false)
    (hi : passage.Tells scope.settings inner) {bar : Int × Int} {rest : List (Int × Int)}
    (hc : inner.closed = bar :: rest) (hsums : Exactly (scope.passageSums passage)) :
    (scope.absorb stage passage).Reckons
      { closed :=
          bars.closed ++ (bars.beats + bar.1, bars.time + bar.2) :: Bars.later bars.time rest
        beats := inner.beats
        time := bars.time + inner.time } := by
  have hne : passage.progress.barCount ≠ 0 := by rw [hi.count, hc]; exact Nat.succ_ne_zero _
  simp only [passageSums, Exactly, if_neg hne, List.cons_append, List.nil_append,
    List.forall_mem_cons] at hsums
  obtain ⟨hbeats, htime, hfirst, hlater⟩ := hsums
  obtain ⟨hbar, hend⟩ := hi.first bar (by simp [hc])
  obtain ⟨n, hn, hbeats⟩ := h.beats.add hbeats
  obtain ⟨m, hm, htime⟩ := h.time.add htime
  obtain ⟨k, hk, hfirst⟩ := h.time.add hfirst
  obtain rfl : bar.1 = n := Option.some.inj (hbar.units?.symm.trans hn)
  obtain rfl : inner.time = m := Option.some.inj (hi.time.units?.symm.trans hm)
  obtain rfl : bar.2 = k := Option.some.inj (hend.units?.symm.trans hk)
  have hrecounts := scope.joinBars_recounts passage.progress
  obtain ⟨⟨barFirst, firstBarTime, hprogress⟩, hremarks⟩ := joinBars_of_ne hnested hne
  have hlast : passage.progress.beatsOpen = passage.progress.barLast := if_neg hne
  have hopen : ∀ p : Progress, p.barCount ≠ 0 → p.beatsOpen = p.barLast := fun p hp ↦ if_neg hp
  constructor
  · change (scope.joinBars passage.progress).progress.barCount = _
    rw [hprogress]
    simp [h.count, hi.count, hc]
  · change Reads (scope.joinBars passage.progress).progress.beatsOpen _
    rw [hprogress, hopen _ fun h0 ↦ hne (Nat.eq_zero_of_add_eq_zero_left h0)]
    exact hlast ▸ hi.beats
  · change Reads ((scope.joinBars passage.progress).progress.duration + _) _
    rw [hprogress]
    exact htime
  · change (scope.joinBars passage.progress).progress.voices = _
    rw [hprogress]
    exact h.voices
  · exact fun hn ↦ absurd ((hrecounts.nested.trans hnested).symm.trans hn) Bool.false_ne_true
  · have hsettings : (scope.absorb stage passage).settings = scope.settings := hrecounts.settings
    have hn : (scope.absorb stage passage).nested = false := hrecounts.nested.trans hnested
    have hfirstBar : shortfalls scope.settings [(bars.beats + bar.1, bars.time + bar.2)] =
        shortfall scope.settings (scope.progress.beatsOpen + passage.progress.barFirst)
          (scope.progress.duration + passage.progress.firstBarTime) :=
      shortfalls_singleton hbeats hfirst
    have hrest : shortfalls scope.settings (Bars.later bars.time rest) =
        (barLengths passage.remarks).map
        fun bar ↦ (bar.1, bar.2.1, bar.2.2 + scope.progress.duration) := by
      rw [hi.remarks, hc] at hlater ⊢
      exact shortfalls_later (fun bar hmem ↦ hi.ends bar (hc ▸ List.mem_cons_of_mem _ hmem))
        h.time.units? hlater
    have hstart := h.remarks
    rw [hnested] at hstart
    rw [hsettings, hn]
    change barLengths ((scope.joinBars passage.progress).remarks ++ _) = _
    rw [barLengths_append, barLengths_within, hremarks, hstart, ← hrest, ← hfirstBar,
      ← shortfalls_append, ← shortfalls_append, List.append_assoc]
    rfl

end Absorb

theorem Reckons.absorb (h : scope.Reckons bars) (hnested : scope.nested = false) {passage : Passage}
    {inner : Bars} (hi : passage.Tells scope.settings inner) {stage : Stage}
    (hsums : Exactly (scope.passageSums passage)) :
    (scope.absorb stage passage).Reckons (bars.join inner) := by
  cases hc : inner.closed with
  | nil =>
    simpa only [Bars.join, hc] using h.absorb_nil hnested hi hc hsums
  | cons bar rest =>
    simpa only [Bars.join, hc] using h.absorb_cons hnested hi hc hsums

end Scope

end Rendition
