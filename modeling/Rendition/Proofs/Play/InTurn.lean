import Rendition.Proofs.Play.Joining
import Rendition.Proofs.Play.Summing
import Rendition.Proofs.Play.Terminal

namespace Rendition

open Number

/-- What is told of the length of a bar: the beats expected, those counted and the time. -/
abbrev Report := Float × Float × Float

namespace Report

def later (time : Float) (r : Report) : Report := (r.1, r.2.1, r.2.2 + time)

def Same (r r' : Report) : Prop := r.1 = r'.1 ∧ Number.Same r.2.1 r'.2.1 ∧ Number.Same r.2.2 r'.2.2

def Moves (delta : Float) (r r' : Report) : Prop :=
  r'.1 = r.1 ∧ r'.2.1 = r.2.1 ∧ Adds delta r.2.2 r'.2.2

theorem Same.refl (r : Report) : Same r r := ⟨rfl, .inl rfl, .inl rfl⟩

variable {settings : Settings} {beats beats' time time' delta part whole : Float}
  {reports reports' : List Report}

theorem same_shortfall (hb : Number.Same beats beats') (ht : Number.Same time time') :
    List.Forall₂ Same (shortfall settings beats time) (shortfall settings beats' time') := by
  obtain rfl | ⟨hz, hz'⟩ := hb
  · unfold shortfall
    split
    · exact .nil
    · exact .cons ⟨rfl, .inl rfl, ht⟩ .nil
  · rw [shortfall, shortfall, hz, hz', Bool.true_or, Bool.true_or, if_pos rfl, if_pos rfl]
    exact .nil

theorem moves_shortfall (settings : Settings) (beats : Float) (ht : Adds delta time time') :
    List.Forall₂ (Moves delta) (shortfall settings beats time)
      (shortfall settings beats time') := by
  unfold shortfall
  split
  · exact .nil
  · exact .cons ⟨rfl, rfl, ht⟩ .nil

theorem moves_later (h : Adds delta part whole) (hpart : ∀ r ∈ reports, ExactSum r.2.2 part)
    (hwhole : ∀ r ∈ reports, ExactSum r.2.2 whole) :
    List.Forall₂ (Moves delta) (reports.map (later part)) (reports.map (later whole)) := by
  rw [List.forall₂_map_left_iff, List.forall₂_map_right_iff, List.forall₂_same]
  intro r hr
  exact ⟨rfl, rfl, h.add_left (hpart r hr) (hwhole r hr)⟩

theorem same_of_moves (h : List.Forall₂ (Moves delta) reports reports')
    (hsums : ∀ r ∈ reports, ExactSum r.2.2 delta) :
    List.Forall₂ Same (reports.map (later delta)) reports' := by
  induction h with
  | nil => exact .nil
  | cons hmoves _ ih =>
    obtain ⟨hsum, hrest⟩ := List.forall_mem_cons.mp hsums
    obtain ⟨hbar, hbeats, htime⟩ := hmoves
    exact .cons ⟨hbar.symm, .inl hbeats.symm, hsum.adds.comm.same htime⟩ (ih hrest)

end Report

def Passage.Quiet (passage : Passage) : Prop :=
  passage.progress.barCount = 0 → barLengths passage.remarks = []

namespace Scope

variable {stage : Stage} {scope outer inner whole : Scope} {passage : Passage} {s : Session}

abbrev clock (scope : Scope) : Float × Float := (scope.progress.duration, scope.progress.beatCount)

def joinReports (scope : Scope) (inner : Progress) : List Report :=
  if inner.barCount = 0 ∨ scope.progress.barCount = 0 ∧ scope.nested then []
  else shortfall scope.settings (scope.progress.beatsOpen + inner.barFirst)
    (scope.progress.duration + inner.firstBarTime)

theorem barLengths_absorb : barLengths (scope.absorb stage passage).remarks =
    barLengths scope.remarks ++ (scope.joinReports passage.progress ++
      (barLengths passage.remarks).map (.later scope.progress.duration)) := by
  have hjoin : barLengths (scope.joinBars passage.progress).remarks =
      barLengths scope.remarks ++ scope.joinReports passage.progress := by
    unfold joinReports
    rw [joinBars_eq]
    by_cases hx : passage.progress.barCount = 0
    · rw [if_pos hx, if_pos (.inl hx), List.append_nil]
    · rw [if_neg hx, barLengths_append]
      refine congrArg (barLengths scope.remarks ++ ·) ?_
      by_cases hfirst : scope.progress.barCount = 0 ∧ scope.nested
      · rw [if_pos (by simpa using hfirst), if_pos (.inr hfirst)]
        rfl
      · rw [if_neg (by simpa using hfirst), if_neg (not_or.mpr ⟨hx, hfirst⟩), barLengths_barRemarks]
  have hinner : barLengths (passage.remarks.map (·.within scope.place scope.progress.duration)) =
      (barLengths passage.remarks).map (Report.later scope.progress.duration) :=
    barLengths_within ..
  rw [← List.append_assoc, ← hjoin, ← hinner]
  exact barLengths_append _ _

theorem nested_absorb : (scope.absorb stage passage).nested = scope.nested :=
  (scope.joinBars_recounts passage.progress).nested

/-- The additions with which an inner passage is taken in, its reports on bars
included, round nothing off. -/
structure AbsorbsExactly (scope : Scope) (passage : Passage) : Prop where
  counters : scope.progress.AddsExactly passage.progress
  reports : ∀ r ∈ barLengths passage.remarks, ExactSum r.2.2 scope.progress.duration

/-- The reports on bars that an inner passage and the whole have made: those of passages before the
first that closed a bar, what was remarked on that bar in the whole, and those since. -/
structure Reports (outer inner whole : Scope) (early first late : List Report) : Prop where
  remarks : barLengths whole.remarks = barLengths outer.remarks ++ (early ++ first ++ late)
  moves : List.Forall₂ (Report.Moves outer.progress.duration) (barLengths inner.remarks)
    (early ++ late)
  unbarred : inner.progress.barCount = 0 → first = [] ∧ late = []
  barred : inner.progress.barCount ≠ 0 → ∃ beats time,
    Adds outer.progress.beatsOpen inner.progress.barFirst beats ∧
    Adds outer.progress.duration inner.progress.firstBarTime time ∧
    first = if outer.progress.barCount = 0 ∧ outer.nested then []
    else shortfall outer.settings beats time

/-- An inner passage and the whole, going on by the same passages. -/
structure InStep (outer inner whole : Scope) : Prop where
  inner_settings : inner.settings = outer.settings
  whole_settings : whole.settings = outer.settings
  inner_nested : inner.nested
  whole_nested : whole.nested = outer.nested
  totals : outer.progress.Totals inner.progress whole.progress

namespace InStep

theorem joinReports_moves (h : outer.InStep inner whole) (hj : inner.progress.barCount ≠ 0)
    (hi : inner.AbsorbsExactly passage) (hw : whole.AbsorbsExactly passage) :
    List.Forall₂ (Report.Moves outer.progress.duration) (inner.joinReports passage.progress)
      (whole.joinReports passage.progress) := by
  have hq : whole.progress.barCount ≠ 0 := by rw [h.totals.barCount]; omega
  unfold joinReports
  by_cases hx : passage.progress.barCount = 0
  · rw [if_pos (.inl hx), if_pos (.inl hx)]
    exact .nil
  · have hopen : whole.progress.beatsOpen = inner.progress.beatsOpen := by
      rw [Progress.beatsOpen, Progress.beatsOpen, if_neg hj, if_neg hq,
        (h.totals.closes hj).barLast]
    rw [if_neg (not_or.mpr ⟨hx, fun hboth ↦ hj hboth.1⟩),
      if_neg (not_or.mpr ⟨hx, fun hboth ↦ hq hboth.1⟩), hopen, h.inner_settings, h.whole_settings]
    exact Report.moves_shortfall _ _ (h.totals.duration.add (hi.counters.firstBarTime hx)
      (hw.counters.firstBarTime hx))

theorem atIndex (h : outer.InStep inner whole) (index : Nat) :
    outer.InStep (inner.atIndex index) whole where
  inner_settings := h.inner_settings
  whole_settings := h.whole_settings
  inner_nested := h.inner_nested
  whole_nested := h.whole_nested
  totals := h.totals.update index _ _

theorem absorb (h : outer.InStep inner whole) (hi : inner.AbsorbsExactly passage)
    (hw : whole.AbsorbsExactly passage) :
    outer.InStep (inner.absorb stage passage) (whole.absorb stage passage) where
  inner_settings := (absorb_settings ..).trans h.inner_settings
  whole_settings := (absorb_settings ..).trans h.whole_settings
  inner_nested := nested_absorb.trans h.inner_nested
  whole_nested := nested_absorb.trans h.whole_nested
  totals := h.totals.absorb hi.counters hw.counters

end InStep

namespace Reports

variable {early first late : List Report}

section Absorb

variable (h : outer.Reports inner whole early first late) (hstep : outer.InStep inner whole)
  (hi : inner.AbsorbsExactly passage) (hw : whole.AbsorbsExactly passage)
include h hstep hi hw

theorem absorb_silent (hj : inner.progress.barCount = 0) (hx : passage.progress.barCount = 0) :
    outer.Reports (inner.absorb stage passage) (whole.absorb stage passage)
      (early ++ (barLengths passage.remarks).map (.later whole.progress.duration)) [] [] := by
  obtain ⟨rfl, rfl⟩ := h.unbarred hj
  have hsilent (scope : Scope) : scope.joinReports passage.progress = [] := if_pos (.inl hx)
  constructor
  · rw [barLengths_absorb, h.remarks, hsilent]
    simp only [List.append_nil, List.nil_append, List.append_assoc]
  · rw [barLengths_absorb, hsilent, List.append_nil, List.nil_append]
    have hmoves := h.moves
    rw [List.append_nil] at hmoves
    exact List.rel_append hmoves (Report.moves_later hstep.totals.duration hi.reports hw.reports)
  · exact fun _ ↦ ⟨rfl, rfl⟩
  · intro hne
    rw [barCount_absorb, hj, hx] at hne
    exact absurd rfl hne

theorem absorb_first (hj : inner.progress.barCount = 0) (hx : passage.progress.barCount ≠ 0) :
    outer.Reports (inner.absorb stage passage) (whole.absorb stage passage) early
      (whole.joinReports passage.progress)
        ((barLengths passage.remarks).map (.later whole.progress.duration)) := by
  obtain ⟨rfl, rfl⟩ := h.unbarred hj
  constructor
  · rw [barLengths_absorb, h.remarks]
    simp only [List.append_nil, List.append_assoc]
  · have hleft : inner.joinReports passage.progress = [] := if_pos (.inr ⟨hj, hstep.inner_nested⟩)
    rw [barLengths_absorb, hleft, List.nil_append]
    have hmoves := h.moves
    rw [List.append_nil] at hmoves
    exact List.rel_append hmoves (Report.moves_later hstep.totals.duration hi.reports hw.reports)
  · intro hzero
    rw [barCount_absorb] at hzero
    omega
  · intro _
    refine ⟨whole.progress.beatsOpen + passage.progress.barFirst,
      whole.progress.duration + passage.progress.firstBarTime, ?_, ?_, ?_⟩
    · rw [barFirst_absorb, if_pos hj]
      exact (hstep.totals.keepsOpen hj).beatsOpen.add hi.counters.beatsOpen hw.counters.beatsOpen
    · rw [firstBarTime_absorb, if_pos ⟨hj, hx⟩]
      exact hstep.totals.duration.add (hi.counters.firstBarTime hx) (hw.counters.firstBarTime hx)
    · have hcount : whole.progress.barCount = outer.progress.barCount := by
        rw [hstep.totals.barCount, hj, Nat.add_zero]
      rw [joinReports, hcount, hstep.whole_nested, hstep.whole_settings]
      simp only [hx, false_or]

theorem absorb_late (hj : inner.progress.barCount ≠ 0) :
    outer.Reports (inner.absorb stage passage) (whole.absorb stage passage) early first
      (late ++ (whole.joinReports passage.progress ++
        (barLengths passage.remarks).map (.later whole.progress.duration))) := by
  constructor
  · rw [barLengths_absorb, h.remarks]
    simp only [List.append_assoc]
  · rw [barLengths_absorb, ← List.append_assoc early late]
    exact List.rel_append h.moves (List.rel_append (hstep.joinReports_moves hj hi hw)
      (Report.moves_later hstep.totals.duration hi.reports hw.reports))
  · intro hzero
    rw [barCount_absorb] at hzero
    omega
  · intro _
    rw [barFirst_absorb, firstBarTime_absorb, if_neg hj, if_neg fun hboth ↦ hj hboth.1]
    exact h.barred hj

theorem absorb (stage : Stage) : ∃ early' first' late',
    outer.Reports (inner.absorb stage passage) (whole.absorb stage passage) early' first' late' ∧
      (early = [] → passage.Quiet → early' = []) := by
  by_cases hj : inner.progress.barCount = 0
  · by_cases hx : passage.progress.barCount = 0
    · refine ⟨_, _, _, h.absorb_silent hstep hi hw hj hx, ?_⟩
      intro hearly hquiet
      rw [hearly, hquiet hx]
      rfl
    · exact ⟨_, _, _, h.absorb_first hstep hi hw hj hx, fun hearly _ ↦ hearly⟩
  · exact ⟨_, _, _, h.absorb_late hstep hi hw hj, fun hearly _ ↦ hearly⟩

end Absorb

theorem same (h : outer.Reports inner whole early first late) (trace : Trace) (tieLeft : Bool)
    (hexact : outer.AbsorbsExactly (inner.result trace tieLeft)) :
    List.Forall₂ Report.Same (barLengths (outer.absorb stage (inner.result trace tieLeft)).remarks)
      (barLengths outer.remarks ++ (first ++ (early ++ late))) := by
  rw [barLengths_absorb]
  refine List.rel_append (List.forall₂_same.mpr fun r _ ↦ Report.Same.refl r)
    (List.rel_append ?_ ?_)
  · change List.Forall₂ Report.Same (outer.joinReports inner.progress) first
    by_cases hj : inner.progress.barCount = 0
    · rw [(h.unbarred hj).1, joinReports, if_pos (.inl hj)]
      exact .nil
    · obtain ⟨beats, time, hbeats, htime, hfirst⟩ := h.barred hj
      rw [hfirst, joinReports]
      simp only [hj, false_or]
      split
      · exact .nil
      · have hfresh := (hexact.counters.firstBarTime hj).adds
        exact Report.same_shortfall (hexact.counters.beatsOpen.adds.same hbeats) (hfresh.same htime)
  · exact Report.same_of_moves h.moves hexact.reports

end Reports

section Sums

variable (stage : Stage)

def addSums (scope : Scope) (passage : Passage) (s : Session) : List (Float × Float) :=
  scope.passageSums passage ++ (scope.progress.beatCount, passage.progress.beatCount) ::
    s.laterSums scope.progress.duration scope.progress.beatCount passage.events

def eachSums : (index : Nat) → List Passage → Scope → Session → List (Float × Float)
  | _, [], _, _ => []
  | index, passage :: rest, scope, s =>
    let (scope', s') := (scope.atIndex index).add stage passage s
    (scope.atIndex index).addSums passage s ++ eachSums (index + 1) rest scope' s'

def joinSums (scope : Scope) (passages : List Passage) (s : Session) : List (Float × Float) :=
  let (joined, s') := scope.join stage passages s
  eachSums stage 0 passages (enter stage scope.settings s true) s ++ scope.addSums joined s'

def inTurnSums : List Passage → Scope → Session → List (Float × Float)
  | [], _, _ => []
  | passage :: rest, scope, s =>
    let (scope', s') := scope.add stage passage s
    scope.addSums passage s ++ inTurnSums rest scope' s'

end Sums

theorem exactly_addSums (h : Exactly (scope.addSums passage s)) :
    scope.AbsorbsExactly passage ∧
      Exactly (s.laterSums scope.progress.duration scope.progress.beatCount passage.events) := by
  simp only [addSums, passageSums, Exactly, List.cons_append, List.append_assoc,
    List.forall_mem_cons, List.forall_mem_append, List.forall_mem_map] at h
  obtain ⟨hopen, hduration, hfirst, hreports, hbeats, hevents⟩ := h
  refine ⟨⟨⟨hopen, hduration, hbeats, fun hx ↦ ?_⟩, hreports⟩, hevents⟩
  rw [if_neg hx, List.forall_mem_singleton] at hfirst
  exact hfirst

variable {t : Session} {early first late : List Report}

theorem inStep_addEach (index : Nat) (passages : List Passage) (h : outer.InStep inner whole)
    (hreports : outer.Reports inner whole early first late)
    (hlags : s.Lags outer.clock inner.events t)
    (heach : Exactly (eachSums stage index passages inner s))
    (hturn : Exactly (inTurnSums stage passages whole t)) :
    outer.InStep (addEach stage index passages inner s).1 (addInTurn stage passages whole t).1 ∧
      (addEach stage index passages inner s).2.Lags outer.clock
        (addEach stage index passages inner s).1.events (addInTurn stage passages whole t).2 ∧
      ∃ early' first' late',
        outer.Reports (addEach stage index passages inner s).1 (addInTurn stage passages whole t).1
          early' first' late' ∧
        (early = [] → (∀ p ∈ passages, p.Quiet) → early' = []) := by
  induction passages generalizing index inner whole s t early first late with
  | nil => exact ⟨h, hlags, early, first, late, hreports, fun hearly _ ↦ hearly⟩
  | cons passage rest ih =>
    obtain ⟨hsums, heach⟩ := exactly_append.mp heach
    obtain ⟨hsums', hturn⟩ := exactly_append.mp hturn
    obtain ⟨hi, hmoved⟩ := exactly_addSums hsums
    obtain ⟨hw, hmoved'⟩ := exactly_addSums hsums'
    have hindex := h.atIndex index
    have hreports' : outer.Reports (inner.atIndex index) whole early first late :=
      ⟨hreports.remarks, hreports.moves, hreports.unbarred, hreports.barred⟩
    obtain ⟨early', first', late', hnext, hearly'⟩ := hreports'.absorb hindex hi hw stage
    have hlags' : ((inner.atIndex index).add stage passage s).2.Lags outer.clock
        ((inner.atIndex index).absorb stage passage).events (whole.add stage passage t).2 := by
      rw [absorb_events]
      exact hlags.later hindex.totals.duration hindex.totals.beatCount hmoved hmoved'
    obtain ⟨hstep, hlag, early'', first'', late'', hlast, hearly''⟩ :=
      ih (index + 1) (hindex.absorb hi hw) hnext hlags' heach hturn
    refine ⟨hstep, hlag, early'', first'', late'', hlast, ?_⟩
    intro hearly hquiet
    obtain ⟨hpassage, hrest⟩ := List.forall_mem_cons.mp hquiet
    exact hearly'' (hearly' hearly hpassage) hrest

/-- Without rounding it makes no difference to the times whether passages are joined to one or
added one after another. -/
theorem times_join (scope : Scope) (passages : List Passage) (s : Session)
    (h : Exactly (scope.joinSums stage passages s ++ inTurnSums stage passages scope s)) :
    let whole := scope.add stage (scope.join stage passages s).1 (scope.join stage passages s).2
    let parts := addInTurn stage passages scope s
    whole.1.progress.CountsSame parts.1.progress ∧
      (∀ id, Option.Rel (fun o o' ↦ Same o.1 o'.1 ∧ Same o.2 o'.2) (whole.2.onset? id)
        (parts.2.onset? id)) ∧
      ∃ reports, List.Forall₂ Report.Same (barLengths whole.1.remarks) reports ∧
        reports.Perm (barLengths parts.1.remarks) ∧
        ((∀ p ∈ passages, p.Quiet) → reports = barLengths parts.1.remarks) := by
  obtain ⟨hjoin, hturn⟩ := exactly_append.mp h
  unfold joinSums at hjoin
  rw [join_eq] at hjoin ⊢
  obtain ⟨heach, hadd⟩ := exactly_append.mp hjoin
  obtain ⟨habsorbs, hmoved⟩ := exactly_addSums hadd
  have hcounts := habsorbs.counters
  have henter : scope.InStep (enter stage scope.settings s true) scope :=
    ⟨rfl, rfl, rfl, rfl, .start hcounts.duration.adds.zero hcounts.beatCount.adds.zero
      hcounts.beatsOpen.adds.zero⟩
  have hnone : scope.Reports (enter stage scope.settings s true) scope [] [] [] :=
    ⟨(List.append_nil _).symm, .nil, fun _ ↦ ⟨rfl, rfl⟩, fun hne ↦ absurd rfl hne⟩
  obtain ⟨hstep, hlags, early, first, late, hreports, hearly⟩ :=
    inStep_addEach 0 passages henter hnone (.refl scope.clock s) heach hturn
  refine ⟨(Progress.Totals.of_absorb hcounts).countsSame (hstep.totals.update _ _ _), fun id ↦ ?_,
    _, hreports.same _ _ habsorbs, ?_, ?_⟩
  · have hmove := (Session.Lags.refl scope.clock (scope.joining stage passages s).2).move hmoved
    exact hmove.same hlags id
  · rw [hreports.remarks, ← List.append_assoc first]
    exact .append_left _ (.append_right _ List.perm_append_comm)
  · intro hquiet
    rw [hreports.remarks, hearly rfl hquiet]
    rfl

end Scope

/-- A passage that a function has got by playing a phrase. -/
def Passage.Played (stage : Stage) (passage : Passage) : Prop :=
  ∃ depth phrase overrides access caller s s',
    (Scope.playPhrase (playerOf stage depth) phrase overrides access caller).run s =
    some (.ok passage, s')

theorem Passage.Played.quiet {stage : Stage} {passage : Passage} (h : passage.Played stage)
    (hr : stage.repertoire.Honest) : passage.Quiet := by
  intro hcount
  obtain ⟨depth, phrase, overrides, access, caller, s, s', hrun⟩ := h
  rw [Scope.playPhrase_run] at hrun
  obtain ⟨⟨r, s₁⟩, hplay, he⟩ := Option.map_eq_some_iff.mp hrun
  cases he
  have haccounts := playerOf_accountsFor hr depth _ _ _ _ _ _
    (barLengths_repetition fun _ ↦ Phrase.finding_of_mem_written) hplay
  have hbars := haccounts.count.symm.trans hcount
  rw [haccounts.remarks, List.length_eq_zero_iff.mp hbars]
  rfl

/-- Joining passages to one and adding that one comes to the same as adding them one after another.
Places are the exception: the joined passage leads to its remarks by one place more. What depends on
times agrees as numbers if no addition rounds; the reports on bars may change places if a function
hands over passages that it has made up. -/
theorem Scope.join_adds_as_in_turn {stage : Stage} (hp : stage.repertoire.plugins = ∅)
    (scope : Scope) (passages : List Passage) (s : Session) :
    let joined := scope.join stage passages s
    let whole := scope.add stage joined.1 joined.2
    let parts := addInTurn stage passages scope s
    joined.1.progress.trace = passages.flatMap (·.progress.trace) ∧
      scope.GoesOnAlike whole.1 parts.1 ∧ whole.2.Alike parts.2 ∧
      (Exactly (scope.joinSums stage passages s ++ inTurnSums stage passages scope s) →
        whole.1.progress.CountsSame parts.1.progress ∧
        (∀ id, Option.Rel (fun o o' ↦ Same o.1 o'.1 ∧ Same o.2 o'.2) (whole.2.onset? id)
          (parts.2.onset? id)) ∧
        ∃ reports, List.Forall₂ Report.Same (barLengths whole.1.remarks) reports ∧
          reports.Perm (barLengths parts.1.remarks) ∧
          (stage.repertoire.Honest → (∀ p ∈ passages, p.Played stage) →
            reports = barLengths parts.1.remarks)) := by
  refine ⟨rfl, goesOnAlike_join hp scope passages s, alike_join scope passages s, ?_⟩
  intro hexact
  obtain ⟨hcounts, honsets, reports, hsame, hperm, hquiet⟩ := times_join scope passages s hexact
  exact ⟨hcounts, honsets, reports, hsame, hperm, fun hr hplayed ↦ hquiet fun p hmem ↦
    (hplayed p hmem).quiet hr⟩

namespace Pickup

def stage : Stage := ⟨.standard, ∅⟩

def caller : Scope :=
  { Scope.enter stage {} {} false with
    progress := { barFirst := 1, duration := 1, beatCount := 1 } }

def play (content : List Symbol) (s : Session) : Option (Except Fault Passage × Session) :=
  (caller.playPhrase (playerOf stage 1) { content } {} .full).run s

def taken (played : Option (Except Fault Passage × Session)) : Passage × Session :=
  match played with
  | some (.ok passage, s) => (passage, s)
  | _ => ({}, {})

def note : Symbol := .note { pitches := [{ degree := .scale 1 }] }

def bars : List Symbol := [note, .barLine {}, note, note, note, .barLine {}]

def first : Passage × Session := taken (play [note] {})

def second : Passage × Session := taken (play bars first.2)

def third : Passage × Session := taken (play bars second.2)

def passages : List Passage := [first.1, second.1, third.1]

end Pickup

open Pickup in
theorem Scope.join_adds_as_in_turn_pickup :
    let joined := caller.join stage passages third.2
    let whole := caller.add stage joined.1 joined.2
    let parts := addInTurn stage passages caller third.2
    stage.repertoire.plugins = ∅ ∧ (∀ p ∈ passages, p.Played stage) ∧
      Exactly (caller.joinSums stage passages third.2 ++ inTurnSums stage passages caller third.2) ∧
      caller.GoesOnAlike whole.1 parts.1 ∧ whole.1.progress.CountsSame parts.1.progress ∧
      parts.1.progress.duration = 10 ∧ parts.1.progress.barCount = 4 ∧
      List.Forall₂ Report.Same (barLengths whole.1.remarks) (barLengths parts.1.remarks) ∧
      barLengths parts.1.remarks = [(4, 3, 3), (4, 3, 6), (4, 1, 7), (4, 3, 10)] := by
  have hplayed : ∀ p ∈ passages, p.Played stage := by
    have hfirst : play [note] {} = some (.ok first.1, first.2) := by decide +kernel
    have hsecond : play bars first.2 = some (.ok second.1, second.2) := by decide +kernel
    have hthird : play bars second.2 = some (.ok third.1, third.2) := by decide +kernel
    refine List.forall_mem_cons.mpr ⟨?_,
      List.forall_mem_cons.mpr ⟨?_, List.forall_mem_singleton.mpr ?_⟩⟩
    · exact ⟨1, { content := [note] }, {}, .full, caller, {}, first.2, hfirst⟩
    · exact ⟨1, { content := bars }, {}, .full, caller, first.2, second.2, hsecond⟩
    · exact ⟨1, { content := bars }, {}, .full, caller, second.2, third.2, hthird⟩
  have hexact :
      Exactly (caller.joinSums stage passages third.2 ++ inTurnSums stage passages caller
        third.2) := by
    decide +kernel
  have hp : stage.repertoire.plugins = ∅ := rfl
  obtain ⟨-, halike, -, htimes⟩ := join_adds_as_in_turn hp caller passages third.2
  obtain ⟨hcounts, -, reports, hsame, -, horder⟩ := htimes hexact
  rw [horder Repertoire.onlyStandard_standard.honest hplayed] at hsame
  exact ⟨rfl, hplayed, hexact, halike, hcounts,
    by decide +kernel, by decide +kernel, hsame, by decide +kernel⟩

end Rendition
