import Rendition.Proofs.Play.Likeness

namespace Rendition

section Unnumbered

def Mark.unnumbered (mark : Mark) : Mark := { mark with index := 0 }

def Marks.unnumbered (marks : Marks) : Marks := marks.map (List.map Mark.unnumbered)

def Progress.unnumbered (p : Progress) : Progress := { p with index := 0 }

def Fault.unnumbered : Fault → Fault
  | .undefinedTheme name bar _ => .undefinedTheme name bar 0
  | fault => fault

def Scope.unnumbered (scope : Scope) : Scope :=
  { scope with
    progress := scope.progress.unnumbered
    remarks := scope.remarks.map Remark.unnumbered
    marks := scope.marks.unnumbered }

def Passage.unnumbered (passage : Passage) : Passage :=
  { passage with
    marks := passage.marks.unnumbered
    remarks := passage.remarks.map Remark.unnumbered
    progress := passage.progress.unnumbered }

def Performance.unnumbered (performance : Performance) : Performance :=
  { performance with
    marks := performance.marks.unnumbered
    remarks := performance.remarks.map Remark.unnumbered
    progress := performance.progress.unnumbered }

def unnumberedResult : Except Fault Performance → Except Fault Performance
  | .ok performance => .ok performance.unnumbered
  | .error fault => .error fault.unnumbered

end Unnumbered

namespace Marks

theorem add_unnumbered (marks : Marks) (group : String) (more : List Mark) :
    marks.unnumbered.add group (more.map Mark.unnumbered) = (marks.add group more).unnumbered := by
  have hfind : (marks.unnumbered.find? group).getD [] =
      ((marks.find? group).getD []).map Mark.unnumbered := by
    rw [unnumbered, Table.find?_map]
    cases marks.find? group <;> rfl
  rw [add, add, hfind, ← List.map_append]
  exact Table.insert_map _ _ _ _

theorem addAll_unnumbered (marks inner : Marks) (time : Float) :
    marks.unnumbered.addAll inner.unnumbered time = (marks.addAll inner time).unnumbered := by
  obtain ⟨entries⟩ := inner
  unfold addAll
  change List.foldl _ _ (entries.map _) = _
  dsimp only
  induction entries generalizing marks with
  | nil => rfl
  | cons e rest ih =>
    rw [List.map_cons, List.foldl_cons, List.foldl_cons, ← ih, ← add_unnumbered, List.map_map,
      List.map_map]
    rfl

end Marks

theorem Remark.within_unnumbered (r : Remark) (place : Place) (time : Float) :
    r.unnumbered.within { place with index := 0 } time = (r.within place time).unnumbered := by
  obtain ⟨finding, path⟩ := r
  cases finding <;> rfl

namespace Progress

variable (p : Progress)

theorem lengthen_unnumbered (beats : Float) :
    p.unnumbered.lengthen beats = (p.lengthen beats).unnumbered := by
  have hcount : p.unnumbered.barCount = p.barCount := rfl
  unfold lengthen
  rw [hcount]
  split <;> rfl

theorem nextVoice_unnumbered : p.unnumbered.nextVoice = p.nextVoice.unnumbered := by
  have hends : (p.unnumbered.duration != 0 || p.unnumbered.beatCount != 0) =
      (p.duration != 0 || p.beatCount != 0) :=
    rfl
  unfold nextVoice
  rw [hends]
  split <;> rfl

end Progress

theorem Note.play_unnumbered {stage : Stage} (note : Note) (settings : Settings) (s : Session)
    (p : Progress) :
    note.play stage settings s p.unnumbered =
      ({ (note.play stage settings s p).1 with
          remarks := (note.play stage settings s p).1.remarks.map Remark.unnumbered },
        (note.play stage settings s p).2.1, (note.play stage settings s p).2.2.unnumbered) := by
  have hremarks (findings : List Finding) : findings.map (Remark.located · p.unnumbered.place) =
      (findings.map (Remark.located · p.place)).map Remark.unnumbered := by
    rw [List.map_map]
    rfl
  unfold play
  dsimp only
  rw [hremarks]
  rfl

namespace Scope

variable (scope : Scope) {stage : Stage}

theorem remark_unnumbered (finding : Finding) :
    scope.unnumbered.remark finding = (scope.remark finding).unnumbered := by
  have hremarks : scope.remarks.map Remark.unnumbered ++
      [Remark.located finding scope.unnumbered.place] =
      (scope.remarks ++ [Remark.located finding scope.place]).map Remark.unnumbered := by
    rw [List.map_append]
    rfl
  exact congrArg (fun remarks ↦ { scope.unnumbered with remarks }) hremarks

theorem barRemarks_unnumbered (beats time : Float) :
    scope.unnumbered.barRemarks beats time =
      (scope.barRemarks beats time).map Remark.unnumbered := by
  have hfull : scope.unnumbered.isFull beats = scope.isFull beats := rfl
  unfold barRemarks
  rw [hfull]
  split <;> rfl

theorem endBar_unnumbered (terminal : Bool) :
    scope.unnumbered.endBar terminal = (scope.endBar terminal).unnumbered := by
  have hopen : scope.unnumbered.progress.beatsOpen = scope.progress.beatsOpen := rfl
  have hleft : (scope.unnumbered.progress.barCount == 0 && scope.unnumbered.nested || terminal) =
      (scope.progress.barCount == 0 && scope.nested || terminal) := rfl
  rw [endBar_eq, endBar_eq, hopen, hleft]
  split
  · rfl
  · simp only [unnumbered, List.map_append, apply_ite (List.map Remark.unnumbered),
      ← barRemarks_unnumbered]
    rfl

theorem playBarLine_unnumbered (line : BarLine) :
    scope.unnumbered.playBarLine line = (scope.playBarLine line).unnumbered := by
  unfold playBarLine
  dsimp only
  rw [endBar_unnumbered]
  split
  · have hnext := (scope.endBar line.terminal).progress.nextVoice_unnumbered
    exact congrArg (fun p : Progress ↦ { (scope.endBar line.terminal).unnumbered with
      progress := p }) hnext
  · rfl

theorem joinBars_unnumbered (inner : Progress) :
    scope.unnumbered.joinBars inner.unnumbered = (scope.joinBars inner).unnumbered := by
  have hcount : inner.unnumbered.barCount = inner.barCount := rfl
  have hleft : (scope.unnumbered.progress.barCount == 0 && scope.unnumbered.nested) =
      (scope.progress.barCount == 0 && scope.nested) := rfl
  rw [joinBars_eq, joinBars_eq, hcount, hleft]
  split
  · have hlengthen := scope.progress.lengthen_unnumbered inner.barFirst
    exact congrArg (fun p : Progress ↦ { scope.unnumbered with progress := p }) hlengthen
  · simp only [unnumbered, List.map_append, apply_ite (List.map Remark.unnumbered),
      ← barRemarks_unnumbered]
    rfl

theorem settleVoices_unnumbered :
    scope.unnumbered.settleVoices = scope.settleVoices.unnumbered := by
  have hvoices : scope.unnumbered.progress.voices = scope.progress.voices := rfl
  have hnext : scope.unnumbered.progress.nextVoice = scope.progress.nextVoice.unnumbered :=
    scope.progress.nextVoice_unnumbered
  unfold settleVoices
  rw [hvoices, hnext]
  dsimp only
  split
  · rfl
  · generalize scope.progress.nextVoice = p
    have hlast : p.unnumbered.voices = p.voices := rfl
    rw [hlast]
    cases p.voices.any fun d ↦ voiceTolerance < (longest p.voices - d).abs with
    | false => rfl
    | true =>
      have hremark := remark_unnumbered { scope with progress := { p with voices := [] } }
        (.diffDuration (longest p.voices) p.voices)
      exact congrArg (fun s : Scope ↦ { s with
        progress := { s.progress with
          duration := longest p.voices
          beatCount := s.progress.voiceBeats
          voiceBeats := 0 } }) hremark

theorem conclude_unnumbered (s : Session) :
    scope.unnumbered.conclude s = (scope.conclude s).unnumbered := by
  unfold conclude
  rw [settleVoices_unnumbered]
  rfl

theorem playMarking_unnumbered (kind : String) :
    scope.unnumbered.playMarking stage kind = (scope.playMarking stage kind).unnumbered := by
  have hadd (group : String) := scope.marks.add_unnumbered group
    [⟨kind, scope.progress.barCount, scope.progress.index, scope.progress.duration⟩]
  unfold playMarking
  dsimp only
  cases stage.repertoire.annotations.find? kind with
  | none => rfl
  | some rule =>
    dsimp only
    split
    · exact congrArg (fun marks ↦ { scope.unnumbered with
        marks
        progress :=
          { scope.progress.unnumbered with after := insertKind kind scope.progress.after } })
        (hadd rule.group)
    · rfl

theorem absorb_unnumbered (hp : stage.repertoire.plugins = ∅) (passage : Passage) :
    scope.unnumbered.absorb stage passage.unnumbered = (scope.absorb stage passage).unnumbered := by
  have hcollect (passage : Passage) (marks : Marks) :
      stage.repertoire.plugins.collect passage marks = marks := by
    rw [hp]
    rfl
  have hinner : passage.unnumbered.progress = passage.progress.unnumbered := rfl
  have hmarks : (scope.joinBars passage.progress).unnumbered.marks.addAll passage.unnumbered.marks
      scope.unnumbered.progress.duration =
        ((scope.joinBars passage.progress).marks.addAll passage.marks
          scope.progress.duration).unnumbered :=
    Marks.addAll_unnumbered _ _ _
  have hwithin :
      passage.unnumbered.remarks.map
      (·.within scope.unnumbered.place scope.unnumbered.progress.duration) =
      (passage.remarks.map (·.within scope.place scope.progress.duration)).map
      Remark.unnumbered := by
    change (passage.remarks.map Remark.unnumbered).map _ = _
    rw [List.map_map, List.map_map]
    exact List.map_congr_left fun r _ ↦ r.within_unnumbered scope.place scope.progress.duration
  have hremarks (scope : Scope) (inner : List Remark) :
      scope.unnumbered.remarks ++ inner.map Remark.unnumbered =
      (scope.remarks ++ inner).map Remark.unnumbered := List.map_append.symm
  unfold absorb
  dsimp only
  rw [hcollect, hcollect, hinner, joinBars_unnumbered, hmarks, hwithin, hremarks]
  rfl

theorem add_unnumbered (hp : stage.repertoire.plugins = ∅) (passage : Passage) (s : Session) :
    scope.unnumbered.add stage passage.unnumbered s =
      ((scope.add stage passage s).1.unnumbered, (scope.add stage passage s).2) := by
  rw [add, absorb_unnumbered scope hp]
  rfl

theorem noted_unnumbered (s : Session) (note : Note) : scope.unnumbered.noted stage s note =
    ((scope.noted stage s note).1.unnumbered, (scope.noted stage s note).2) := by
  have hplay : note.play stage scope.unnumbered.settings s scope.unnumbered.progress = _ :=
    note.play_unnumbered scope.settings s scope.progress
  unfold noted
  rw [hplay]
  rcases note.play stage scope.settings s scope.progress with ⟨outcome, s', p⟩
  have hremarks (inner : List Remark) : scope.unnumbered.remarks ++ inner.map Remark.unnumbered =
      (scope.remarks ++ inner).map Remark.unnumbered := List.map_append.symm
  dsimp only
  rw [Progress.lengthen_unnumbered, hremarks]
  rfl

theorem playBarLine_eq_self {scope : Scope} (h : scope.progress.beatsOpen == 0) :
    scope.playBarLine {} = scope := by
  have hend : scope.endBar false = scope := by rw [endBar_eq, if_pos h]
  unfold playBarLine
  rw [hend]
  rfl

end Scope

/-- Everything but indices is the same. A bar line without a flag makes no difference
where no beats are open. -/
def Likeness.unnumbered (stage : Stage) (hp : stage.repertoire.plugins = ∅) :
    Likeness stage false where
  settings σ τ := τ = σ
  scope a b := b.unnumbered = a.unnumbered
  passage p q := q.unnumbered = p.unnumbered
  bar m n := n = m
  rests a := a.progress.beatsOpen == 0
  kept := {
    key h := h ▸ rfl
    staccato h := h ▸ rfl
    duration h := h ▸ rfl
    setKey h _ := h ▸ rfl
    setVolume h _ := h ▸ rfl
    setStaccato h _ := h ▸ rfl
    setTrace h _ := h ▸ rfl
    turn h _ _ := h ▸ rfl
    override h _ := h ▸ rfl }
  settings_of_scope {a b} h :=
    show b.unnumbered.settings = a.unnumbered.settings from congrArg Scope.settings h
  bar_of_scope {a b} h := show b.unnumbered.progress.barCount = a.unnumbered.progress.barCount from
    congrArg (·.progress.barCount) h
  enter {σ τ remarks remarks'} h hr s nested := by
    subst h
    exact congrArg (fun remarks ↦ { (Scope.enter stage τ s nested).unnumbered with remarks }) hr
  atIndex h _ _ := h
  remark {a b} h finding := by rw [← b.remark_unnumbered, h, a.remark_unnumbered]
  set {a b σ τ} h hs := by
    subst hs
    exact congrArg (fun scope : Scope ↦ { scope with settings := τ }) h
  playBarLine {a b} h line := by rw [← b.playBarLine_unnumbered, h, a.playBarLine_unnumbered]
  playMarking {a b} h kind := by rw [← b.playMarking_unnumbered, h, a.playMarking_unnumbered]
  noted {a b} h s note := by
    have hnoted : b.unnumbered.noted stage s note = _ := b.noted_unnumbered s note
    rw [h, a.noted_unnumbered] at hnoted
    exact Prod.mk.inj hnoted.symm
  add {a b p q} h hpq s := by
    have hadd := b.add_unnumbered hp q s
    rw [h, hpq, a.add_unnumbered hp] at hadd
    exact Prod.mk.inj hadd.symm
  conclude {a b} h s := by rw [← b.conclude_unnumbered, h, a.conclude_unnumbered]
  rests_enter _ _ _ _ := Scope.zero_beq_zero
  rests_atIndex h _ := h
  rests_playBarLine a line := a.beatsOpen_playBarLine line
  rests_of_loose h := nomatch h
  idle_left h ha := by rw [Scope.playBarLine_eq_self ha, h]
  idle_right {a b} h ha := by
    have hopen : b.progress.beatsOpen = a.progress.beatsOpen := congrArg (·.progress.beatsOpen) h
    rw [Scope.playBarLine_eq_self (hopen ▸ ha), h]

namespace Performance

theorem dropFinalShort_unnumbered (duration : Float) (remarks : List Remark) :
    dropFinalShort duration (remarks.map Remark.unnumbered) =
      (dropFinalShort duration remarks).map Remark.unnumbered := by
  rw [dropFinalShort, dropFinalShort, ← List.map_reverse, List.eraseP_map, List.map_reverse]
  rfl

theorem ofTrack_unnumbered (id : String) (instrument : Instrument) (s : Session)
    (x : Settings × Passage) :
    (ofTrack id instrument s x).unnumbered = ofTrack id instrument s (x.1, x.2.unnumbered) := by
  have hfinal : (finalRemarks x.1 x.2.progress.duration instrument.name).map Remark.unnumbered =
      finalRemarks x.1 x.2.progress.duration instrument.name := by
    rw [finalRemarks, List.map_append, List.map_map]
    split <;> rfl
  unfold ofTrack unnumbered
  dsimp only
  rw [List.map_append, hfinal, ← dropFinalShort_unnumbered]
  rfl

end Performance

/-- Symbols that do nothing, and the bar lines without a flag that follow a bar line once they are
gone, can be taken out of every list that a track is played from: all that becomes different is how
symbols are counted. -/
theorem perform_tidied {r : Repertoire} (hr : r.OnlyStandard) (hp : r.plugins = ∅)
    (settings : Settings) (instrument : Instrument) (id : String) (name : Option String)
    (content : List Symbol) :
    ∃ x y, perform r settings instrument id name content = some x ∧
      perform (r.edited Symbol.tidied) settings (instrument.edited Symbol.tidied) id name
        (Symbol.editAll Symbol.tidied content) = some y ∧
      unnumberedResult y = unnumberedResult x := by
  obtain ⟨theme, bar, bar', index, index', hbar, hx, hy⟩ | ⟨x, y, s, hsettings, hpassage, hx, hy⟩ :=
    perform_matches (.unnumbered (r.stage instrument) hp) hr hp Symbol.spares_tidied
      (rfl : settings = settings) id name content
  · obtain rfl : bar' = bar := hbar
    exact ⟨_, _, hx, hy, rfl⟩
  · have hpassage' : y.2.unnumbered = x.2.unnumbered := hpassage
    have hsettings' : y.1 = x.1 := hsettings
    refine ⟨_, _, hx, hy, congrArg Except.ok ?_⟩
    rw [Performance.ofTrack_unnumbered, Performance.ofTrack_unnumbered, hsettings', hpassage']

namespace Tidying

/-- A theme that ends in a space behind a bar line, and content in which bar lines and symbols
that do nothing stand side by side: at the beginning, around a volta, about a coda and in the
argument of a call. -/
def library : Repertoire where
  functions := Repertoire.standard.functions
  themes := .ofList [("A", [.note { pitches := [{ degree := .scale 2 }] }, .barLine {}, .space])]

def content : List Symbol :=
  [.space, .barLine {}, .note { pitches := [{ degree := .scale 1 }] }, .comment "", .barLine {},
    .clef "G", .barLine {}, .theme "A", .barLine {},
    .phrase 2 [.note { pitches := [{ degree := .scale 3 }] }, .barLine { order := some [1] },
      .space, .barLine {}, .note { pitches := [{ degree := .scale 4 }] }, .space],
    .phrase (-2) [.note { pitches := [{ degree := .scale 5 }] }, .comment "",
      .barLine { skip := true }, .barLine {}, .space],
    .call "Transpose" [.number 2,
      .symbol (.phrase (-1) [.note { pitches := [{ degree := .scale 6 }] }, .space])]]

end Tidying

theorem perform_tidied_repeated : ∃ p q,
    perform Tidying.library { bar := 2 } {} "" none Tidying.content = some (.ok p) ∧
    perform (Tidying.library.edited Symbol.tidied) { bar := 2 }
      (Instrument.edited Symbol.tidied {}) "" none (Symbol.editAll Symbol.tidied Tidying.content) =
        some (.ok q) ∧
    q.unnumbered = p.unnumbered ∧ p.progress.index = 11 ∧ q.progress.index = 7 ∧
    p.progress.barCount = 6 := by
  obtain ⟨x, y, hx, hy, hxy⟩ :=
    @perform_tidied Tidying.library Repertoire.onlyStandard_standard rfl { bar := 2 } {} "" none
      Tidying.content
  obtain ⟨p, hp, hcounts⟩ :=
    exists_performance (f := fun p ↦ (p.progress.index, p.progress.barCount)) (b := (11, 6))
      (x := perform Tidying.library { bar := 2 } {} "" none Tidying.content) (by decide +kernel)
  obtain ⟨q, hq, hindex⟩ := exists_performance (f := fun q ↦ q.progress.index) (b := 7)
    (x := perform (Tidying.library.edited Symbol.tidied) { bar := 2 }
      (Instrument.edited Symbol.tidied {}) "" none (Symbol.editAll Symbol.tidied Tidying.content))
      (by decide +kernel)
  rw [hp] at hx
  rw [hq] at hy
  cases hx
  cases hy
  obtain ⟨hfirst, hbars⟩ := Prod.mk.inj hcounts
  exact ⟨p, q, hp, hq, Except.ok.inj hxy, hfirst, hindex, hbars⟩

end Rendition
