import Rendition.Proofs.Play.Likeness

namespace Rendition

def Finding.isBarLength : Finding → Bool
  | .barLength .. => true
  | _ => false

def barless (remarks : List Remark) : List Finding :=
  (remarks.map Remark.finding).filter (!·.isBarLength)

/-- Settings regardless of how long bars are and of what a beat is. -/
def Settings.unbarred (settings : Settings) : Settings := { settings with bar := 0, beat := 0 }

def Progress.unbarred (p : Progress) : Progress :=
  { p with index := 0, barFirst := 0, barLast := 0, barCount := 0, firstBarTime := 0 }

section Barless

variable (remarks more : List Remark)

@[simp] theorem barless_append : barless (remarks ++ more) = barless remarks ++ barless more := by
  simp [barless]

theorem barless_within (place : Place) (time : Float) :
    barless (remarks.map (·.within place time)) = barless remarks := by
  induction remarks with
  | nil => rfl
  | cons r rest ih =>
    obtain ⟨finding, path⟩ := r
    simp only [barless, List.map_cons, List.filter_cons] at ih ⊢
    rw [ih]
    cases finding <;> rfl

theorem barless_located (findings : List Finding) (place : Place) :
    barless (findings.map (.located · place)) = findings.filter (!·.isBarLength) := by
  have h : (Remark.finding ∘ fun f ↦ Remark.located f place) = id := rfl
  simp [barless, h]

theorem barless_eraseP {p : Remark → Bool} (hp : ∀ r, p r → r.finding.isBarLength) :
    barless (remarks.eraseP p) = barless remarks := by
  induction remarks with
  | nil => rfl
  | cons r rest ih =>
    have hcons (l : List Remark) : barless (r :: l) = barless [r] ++ barless l :=
      barless_append [r] l
    rw [List.eraseP_cons]
    cases h : p r with
    | true =>
      have hr : barless [r] = [] := by simp [barless, hp r h]
      rw [hcons, hr]
      rfl
    | false => exact (hcons _).trans (ih ▸ (hcons rest).symm)

theorem barless_dropFinalShort (duration : Float) :
    barless (Performance.dropFinalShort duration remarks) = barless remarks := by
  have hbar (r : Remark) (h : Performance.isFinalShort duration r) : r.finding.isBarLength := by
    unfold Performance.isFinalShort at h
    split at h
    next he =>
      rw [he]
      rfl
    next => cases h
  have hreverse (l : List Remark) : barless l.reverse = (barless l).reverse := by simp [barless]
  rw [Performance.dropFinalShort, hreverse, barless_eraseP _ hbar, hreverse, List.reverse_reverse]

end Barless

namespace Progress

variable (p : Progress)

theorem lengthen_unbarred (beats : Float) : (p.lengthen beats).unbarred = p.unbarred := by
  unfold lengthen
  split <;> rfl

theorem nextVoice_unbarred : p.nextVoice.unbarred = p.unbarred.nextVoice.unbarred := by
  have hends : (p.unbarred.duration != 0 || p.unbarred.beatCount != 0) =
      (p.duration != 0 || p.beatCount != 0) := rfl
  unfold nextVoice
  rw [hends]
  split <;> rfl

end Progress

section Unbarred

variable (settings : Settings) (stage : Stage) (note : Note)

theorem Note.read_unbarred (trace : Trace) : note.read stage settings.unbarred trace =
    note.read stage settings trace :=
  rfl

theorem Note.timing_unbarred : note.timing settings.unbarred = note.timing settings := rfl

theorem Dial.turn_unbarred (dial : Dial) (value : Float) :
    (dial.turn settings.unbarred value).unbarred = (dial.turn settings value).unbarred := by
  cases dial <;> rfl

theorem Settings.kept_unbarred : Settings.Kept fun σ τ ↦ τ.unbarred = σ.unbarred where
  key {s t} h := show t.unbarred.key = s.unbarred.key from congrArg Settings.key h
  staccato {s t} h :=
    show t.unbarred.staccato = s.unbarred.staccato from congrArg Settings.staccato h
  duration {s t} h :=
    show t.unbarred.duration = s.unbarred.duration from congrArg Settings.duration h
  setKey h key := congrArg (fun s : Settings ↦ { s with key }) h
  setVolume h volume := congrArg (fun s : Settings ↦ { s with volume }) h
  setStaccato h staccato := congrArg (fun s : Settings ↦ { s with staccato }) h
  setTrace h trace := congrArg (fun s : Settings ↦ { s with trace }) h
  turn {s t} h dial value := by rw [← Dial.turn_unbarred t, h, Dial.turn_unbarred]
  override {s t} h overrides :=
    show (t.unbarred.override overrides).unbarred = (s.unbarred.override overrides).unbarred from
      congrArg (fun s : Settings ↦ (s.override overrides).unbarred) h

end Unbarred

namespace Scope

/-- Scopes that differ at most in bars, in marks and in how symbols are counted. -/
structure SoundsSame (a b : Scope) : Prop where
  settings : b.settings.unbarred = a.settings.unbarred
  progress : b.progress.unbarred = a.progress.unbarred
  events : b.events = a.events
  findings : barless b.remarks = barless a.remarks
  traceStart : b.traceStart = a.traceStart

end Scope

structure Passage.SoundsSame (p q : Passage) : Prop where
  progress : q.progress.unbarred = p.progress.unbarred
  events : q.events = p.events
  findings : barless q.remarks = barless p.remarks

namespace Scope

variable {stage : Stage} {a b c : Scope}

namespace SoundsSame

theorem symm (h : a.SoundsSame b) : b.SoundsSame a :=
  ⟨h.settings.symm, h.progress.symm, h.events.symm, h.findings.symm, h.traceStart.symm⟩

theorem trans (h : a.SoundsSame b) (h' : b.SoundsSame c) : a.SoundsSame c :=
  ⟨h'.settings.trans h.settings, h'.progress.trans h.progress, h'.events.trans h.events,
    h'.findings.trans h.findings, h'.traceStart.trans h.traceStart⟩

theorem duration (h : a.SoundsSame b) : b.progress.duration = a.progress.duration :=
  show b.progress.unbarred.duration =
    a.progress.unbarred.duration from congrArg Progress.duration h.progress

theorem beatCount (h : a.SoundsSame b) : b.progress.beatCount = a.progress.beatCount :=
  show b.progress.unbarred.beatCount =
    a.progress.unbarred.beatCount from congrArg Progress.beatCount h.progress

theorem voices (h : a.SoundsSame b) : b.progress.voices = a.progress.voices :=
  show b.progress.unbarred.voices =
    a.progress.unbarred.voices from congrArg Progress.voices h.progress

theorem remark (h : a.SoundsSame b) (finding : Finding) :
    (a.remark finding).SoundsSame (b.remark finding) where
  settings := h.settings
  progress := h.progress
  events := h.events
  findings := by
    change barless (b.remarks ++ [_]) = barless (a.remarks ++ [_])
    rw [barless_append, barless_append, h.findings]
    rfl
  traceStart := h.traceStart

theorem mapProgress (h : a.SoundsSame b) (f : Progress → Progress)
    (hf : ∀ p, (f p).unbarred = (f p.unbarred).unbarred) :
    { a with progress := f a.progress }.SoundsSame { b with progress := f b.progress } where
  settings := h.settings
  progress := by rw [hf, h.progress, ← hf]
  events := h.events
  findings := h.findings
  traceStart := h.traceStart

end SoundsSame

theorem barless_barRemarks (scope : Scope) (beats time : Float) :
    barless (scope.barRemarks beats time) = [] := by
  unfold barRemarks
  split <;> rfl

theorem endBar_soundsSame (scope : Scope) (terminal : Bool) :
    scope.SoundsSame (scope.endBar terminal) := by
  rw [endBar_eq]
  split
  · exact ⟨rfl, rfl, rfl, rfl, rfl⟩
  · refine ⟨rfl, rfl, rfl, ?_, rfl⟩
    dsimp only
    rw [barless_append]
    split
    · exact List.append_nil _
    · rw [barless_barRemarks, List.append_nil]

theorem joinBars_soundsSame (scope : Scope) (inner : Progress) :
    scope.SoundsSame (scope.joinBars inner) := by
  rw [joinBars_eq]
  split
  · exact ⟨rfl, scope.progress.lengthen_unbarred _, rfl, rfl, rfl⟩
  · refine ⟨rfl, rfl, rfl, ?_, rfl⟩
    dsimp only
    rw [barless_append]
    split
    · exact List.append_nil _
    · rw [barless_barRemarks, List.append_nil]

namespace SoundsSame

theorem endBar (h : a.SoundsSame b) (terminal terminal' : Bool) :
    (a.endBar terminal).SoundsSame (b.endBar terminal') :=
  (a.endBar_soundsSame terminal).symm.trans (h.trans (b.endBar_soundsSame terminal'))

theorem playBarLine (h : a.SoundsSame b) (line : BarLine) :
    (a.playBarLine line).SoundsSame (b.playBarLine line) := by
  have hend := h.endBar line.terminal line.terminal
  unfold Scope.playBarLine
  dsimp only
  split
  · exact hend.mapProgress Progress.nextVoice Progress.nextVoice_unbarred
  · exact hend

theorem playMarking (h : a.SoundsSame b) (kind : String) :
    (a.playMarking stage kind).SoundsSame (b.playMarking stage kind) where
  settings := h.settings
  progress := (h.mapProgress (fun p ↦ { p with after := insertKind kind p.after }) fun _ ↦
    rfl).progress
  events := h.events
  findings := h.findings
  traceStart := h.traceStart

theorem settleVoices (h : a.SoundsSame b) : a.settleVoices.SoundsSame b.settleVoices := by
  have hnext := h.mapProgress Progress.nextVoice Progress.nextVoice_unbarred
  have hcleared := hnext.mapProgress (fun p ↦ { p with voices := [] }) fun _ ↦ rfl
  have hsettle {x y : Scope} (hxy : x.SoundsSame y) (most : Float) :=
    hxy.mapProgress (fun p ↦ { p with
      duration := most, beatCount := p.voiceBeats, voiceBeats := 0 }) fun _ ↦ rfl
  unfold Scope.settleVoices
  dsimp only
  rw [h.voices, show b.progress.nextVoice.voices = a.progress.nextVoice.voices from hnext.voices]
  split
  · exact h
  · split
    · exact hsettle (hcleared.remark _) _
    · exact hsettle hcleared _

theorem conclude (h : a.SoundsSame b) (s : Session) : (a.conclude s).SoundsSame (b.conclude s) := by
  have hsettled := h.settleVoices
  refine ⟨?_, hsettled.events, hsettled.findings⟩
  change { b.settleVoices.progress.unbarred with
      trace := s.trace.drop b.settleVoices.traceStart, tieLeft := s.tieLeft } =
    { a.settleVoices.progress.unbarred with
      trace := s.trace.drop a.settleVoices.traceStart, tieLeft := s.tieLeft }
  rw [hsettled.progress, hsettled.traceStart]

section Note

variable (hp : stage.repertoire.plugins = ∅) (h : a.SoundsSame b) (s : Session) (note : Note)
include h

theorem read_eq : note.read stage b.settings s.trace = note.read stage a.settings s.trace := by
  rw [← Note.read_unbarred, h.settings, Note.read_unbarred]

theorem timing_eq : note.timing b.settings = note.timing a.settings := by
  rw [← Note.timing_unbarred, h.settings, Note.timing_unbarred]

theorem tied_eq : note.tied stage b.settings s = note.tied stage a.settings s := by
  rw [Note.tied, Note.tied, h.read_eq]

include hp

theorem fresh_eq : note.fresh stage b.settings s b.progress =
    note.fresh stage a.settings s a.progress := by
  rw [Note.fresh, Note.fresh, h.tied_eq, h.timing_eq, h.duration, h.beatCount, hp]
  rfl

theorem noted : (a.noted stage s note).1.SoundsSame (b.noted stage s note).1 ∧
    (b.noted stage s note).2 = (a.noted stage s note).2 := by
  have hbase : b.noteBase stage s note = a.noteBase stage s note := by
    rw [noteBase, noteBase, h.read_eq, h.timing_eq, h.tied_eq]
  have hstarted : b.started stage s note = a.started stage s note := by
    rw [started, started, h.fresh_eq hp]
  refine ⟨⟨h.settings, ?_, ?_, ?_, h.traceStart⟩, ?_⟩
  · change (Progress.lengthen _ (note.timing b.settings).beat).unbarred =
      (Progress.lengthen _ (note.timing a.settings).beat).unbarred
    rw [Progress.lengthen_unbarred, Progress.lengthen_unbarred]
    change { b.progress.unbarred with
        duration := b.progress.unbarred.duration + (note.timing b.settings).nominal
        beatCount := b.progress.unbarred.beatCount + (note.timing b.settings).beat } =
      { a.progress.unbarred with
        duration := a.progress.unbarred.duration + (note.timing a.settings).nominal
        beatCount := a.progress.unbarred.beatCount + (note.timing a.settings).beat }
    rw [h.progress, h.timing_eq]
  · rw [noted_events, noted_events, h.events, hstarted]
  · rw [noted_remarks, noted_remarks, barless_append, barless_append, barless_located,
      barless_located, h.findings, h.read_eq]
  · rw [noted_snd, noted_snd, hbase, hstarted, h.fresh_eq hp, h.tied_eq]

end Note

theorem add (h : a.SoundsSame b) {p q : Passage} (hpq : p.SoundsSame q) (s : Session) :
    (a.add stage p s).1.SoundsSame (b.add stage q s).1 ∧
    (b.add stage q s).2 = (a.add stage p s).2 := by
  have hjoined : (a.joinBars p.progress).SoundsSame (b.joinBars q.progress) :=
    (a.joinBars_soundsSame p.progress).symm.trans (h.trans (b.joinBars_soundsSame q.progress))
  refine ⟨⟨?_, ?_, ?_, ?_, hjoined.traceStart⟩, ?_⟩
  · exact hjoined.settings
  · exact congrArg₂ (fun p inner : Progress ↦ { p with
      duration := p.duration + inner.duration
      beatCount := p.beatCount + inner.beatCount
      after := inner.after.foldl (fun kinds kind ↦ insertKind kind kinds) p.after })
        hjoined.progress hpq.progress
  · change (b.joinBars q.progress).events ++ q.events = (a.joinBars p.progress).events ++ p.events
    rw [hjoined.events, hpq.events]
  · change barless ((b.joinBars q.progress).remarks ++ _) =
      barless ((a.joinBars p.progress).remarks ++ _)
    rw [barless_append, barless_append, barless_within, barless_within, hjoined.findings,
      hpq.findings]
  · rw [Scope.add, Scope.add, hpq.events, h.duration, h.beatCount]

end SoundsSame

end Scope

/-- Bars are left out of account, and with them all that bar lines without a flag change. -/
def Likeness.unbarred (stage : Stage) (hp : stage.repertoire.plugins = ∅) :
    Likeness stage true where
  settings σ τ := τ.unbarred = σ.unbarred
  scope := Scope.SoundsSame
  passage := Passage.SoundsSame
  bar _ _ := True
  rests _ := True
  kept := Settings.kept_unbarred
  settings_of_scope h := h.settings
  bar_of_scope _ := trivial
  enter {σ τ remarks remarks'} h hr s nested := by
    have hfindings (remarks : List Remark) : remarks.map Remark.finding =
        (remarks.map Remark.unnumbered).map Remark.finding := by
      rw [List.map_map]
      rfl
    refine ⟨h, rfl, rfl, ?_, rfl⟩
    change barless remarks' = barless remarks
    rw [barless, barless, hfindings, hr, ← hfindings]
  atIndex h _ _ := ⟨h.settings, h.progress, h.events, h.findings, h.traceStart⟩
  remark h finding := h.remark finding
  set h hs := ⟨hs, h.progress, h.events, h.findings, h.traceStart⟩
  playBarLine h line := h.playBarLine line
  playMarking h kind := h.playMarking kind
  noted h s note := h.noted hp s note
  add h hpq s := h.add hpq s
  conclude h s := h.conclude s
  rests_enter _ _ _ _ := trivial
  rests_atIndex h _ := h
  rests_playBarLine _ _ := trivial
  rests_of_loose _ _ := trivial
  idle_left {a b} h _ := (a.endBar_soundsSame false).symm.trans h
  idle_right {a b} h _ := h.trans (b.endBar_soundsSame false)

namespace Performance

/-- Performances that sound the same: they differ at most in bars and marks, and in what is found
about the lengths of bars and where anything is found. -/
structure SoundsSame (p q : Performance) : Prop where
  events : q.events = p.events
  trace : q.progress.trace = p.progress.trace
  tieLeft : q.progress.tieLeft = p.progress.tieLeft
  after : q.progress.after = p.progress.after
  duration : q.progress.duration = p.progress.duration
  beatCount : q.progress.beatCount = p.progress.beatCount
  effects : q.effects = p.effects
  findings : barless q.remarks = barless p.remarks

namespace SoundsSame

variable {p q t : Performance}

theorem symm (h : p.SoundsSame q) : q.SoundsSame p :=
  ⟨h.events.symm, h.trace.symm, h.tieLeft.symm, h.after.symm, h.duration.symm, h.beatCount.symm,
    h.effects.symm, h.findings.symm⟩

theorem trans (h : p.SoundsSame q) (h' : q.SoundsSame t) : p.SoundsSame t :=
  ⟨h'.events.trans h.events, h'.trace.trans h.trace, h'.tieLeft.trans h.tieLeft,
    h'.after.trans h.after, h'.duration.trans h.duration, h'.beatCount.trans h.beatCount,
    h'.effects.trans h.effects, h'.findings.trans h.findings⟩

theorem of_track {id : String} {instrument : Instrument} {s : Session} {x y : Settings × Passage}
    (hsettings : y.1.unbarred = x.1.unbarred) (h : x.2.SoundsSame y.2) :
    (ofTrack id instrument s x).SoundsSame (ofTrack id instrument s y) := by
  have hprogress {β : Type} (f : Progress → β) :
      f y.2.progress.unbarred = f x.2.progress.unbarred :=
    congrArg f h.progress
  have heffects : y.1.unbarred.effects = x.1.unbarred.effects := congrArg Settings.effects hsettings
  have hfinal : finalRemarks y.1 y.2.progress.duration instrument.name =
      finalRemarks x.1 x.2.progress.duration instrument.name := by
    change finalRemarks y.1.unbarred y.2.progress.unbarred.duration _ =
      finalRemarks x.1.unbarred x.2.progress.unbarred.duration _
    rw [hsettings, h.progress]
  refine ⟨?_, hprogress Progress.trace, hprogress Progress.tieLeft, hprogress Progress.after,
    hprogress Progress.duration, hprogress Progress.beatCount, heffects, ?_⟩
  · rw [ofTrack, ofTrack, h.events]
  · change barless (dropFinalShort _ _ ++ _) = barless (dropFinalShort _ _ ++ _)
    rw [barless_append, barless_append, barless_dropFinalShort, barless_dropFinalShort,
      h.findings, hfinal]

end SoundsSame

end Performance

section Perform

variable {r r' : Repertoire} {settings settings' : Settings} {instrument instrument' : Instrument}
  {content content' : List Symbol}

/-- Bar lines without a flag, wherever they are written, and the settings about bars make no
difference to what is heard of a track. -/
theorem perform_unbarred (hr : r.OnlyStandard) (hp : r.plugins = ∅)
    (hrepertoire : r'.edited Symbol.unbarred = r.edited Symbol.unbarred)
    (hinstrument : instrument'.edited Symbol.unbarred = instrument.edited Symbol.unbarred)
    (hcontent : Symbol.editAll Symbol.unbarred content' = Symbol.editAll Symbol.unbarred content)
    (hsettings : settings'.unbarred = settings.unbarred) (id : String) (name : Option String) :
    (∃ theme bar index bar' index',
        perform r settings instrument id name content =
          some (.error (.undefinedTheme theme bar index)) ∧
        perform r' settings' instrument' id name content' =
          some (.error (.undefinedTheme theme bar' index'))) ∨
      ∃ p q, perform r settings instrument id name content = some (.ok p) ∧
        perform r' settings' instrument' id name content' = some (.ok q) ∧ p.SoundsSame q := by
  have hfunctions : (r'.edited Symbol.unbarred).functions = (r.edited Symbol.unbarred).functions :=
    congrArg Repertoire.functions hrepertoire
  have hplugins : (r'.edited Symbol.unbarred).plugins = (r.edited Symbol.unbarred).plugins :=
    congrArg Repertoire.plugins hrepertoire
  have hr' : r'.OnlyStandard := by
    intro name function h
    exact hr name function (hfunctions ▸ h)
  have hp' : r'.plugins = ∅ := hplugins.trans hp
  -- Without bar lines both are the same track, under the settings of the first.
  have hfirst := perform_matches (.unbarred (r.stage instrument) hp) hr hp Symbol.spares_unbarred
    (rfl : settings.unbarred = settings.unbarred) id name content
  have hsecond :=
    perform_matches (.unbarred (r'.stage instrument') hp') hr' hp' Symbol.spares_unbarred
      hsettings.symm id name content'
  rw [hrepertoire, hinstrument, hcontent] at hsecond
  obtain ⟨theme, bar, _, index, _, -, hx, hy⟩ | ⟨x, y, s, hends, hpassage, hx, hy⟩ := hfirst <;>
    obtain ⟨theme', bar', _, index', _, -, hx', hy'⟩ | ⟨x', y', s', hends', hpassage', hx', hy'⟩ :=
      hsecond
  all_goals
    rw [hy] at hy'
    have hsame := Option.some.inj hy'
  · cases hsame
    exact .inl ⟨theme, bar, index, bar', index', hx, hx'⟩
  · cases hsame
  · cases hsame
  · have hlike : (Performance.ofTrack id instrument s x).SoundsSame (.ofTrack id instrument s y) :=
      .of_track hends hpassage
    have hlike' :
        (Performance.ofTrack id instrument' s' x').SoundsSame (.ofTrack id instrument' s' y') :=
      .of_track hends' hpassage'
    rw [← Except.ok.inj hsame] at hlike'
    exact .inr ⟨_, _, hx, hx', hlike.trans hlike'.symm⟩

end Perform

namespace Unbarring

def library (theme : List Symbol) : Repertoire where
  functions := Repertoire.standard.functions
  themes := .ofList [("A", theme)]

def theme : List Symbol := [.note { pitches := [{ degree := .scale 2 }] }]

def content : List Symbol :=
  [.note { pitches := [{ degree := .scale 1 }] }, .tie,
    .note { pitches := [{ degree := .scale 1 }] },
    .phrase 2 [.note { pitches := [{ degree := .scale 3 }] }, .barLine { order := some [1] },
      .note { pitches := [{ degree := .scale 4 }] }],
    .phrase (-2) [.theme "A", .barLine { skip := true },
      .note { pitches := [{ degree := .scale 6 }] }],
    .call "Transpose" [.number 2,
      .symbol (.phrase (-1) [.note { pitches := [{ degree := .retrace }] }])]]

def barredTheme : List Symbol :=
  [.barLine {}, .note { pitches := [{ degree := .scale 2 }] }, .barLine {}]

def barredContent : List Symbol :=
  [.barLine {}, .note { pitches := [{ degree := .scale 1 }] }, .tie, .barLine {},
    .note { pitches := [{ degree := .scale 1 }] },
    .phrase 2 [.note { pitches := [{ degree := .scale 3 }] }, .barLine {},
      .barLine { order := some [1] }, .barLine {}, .note { pitches := [{ degree := .scale 4 }] },
      .barLine {}],
    .phrase (-2) [.theme "A", .barLine {}, .barLine { skip := true },
      .note { pitches := [{ degree := .scale 6 }] }, .barLine {}],
    .call "Transpose" [.number 2,
      .symbol (.phrase (-1) [.barLine {}, .note { pitches := [{ degree := .retrace }] }])]]

end Unbarring

theorem perform_unbarred_tied : ∃ p q,
    perform (Unbarring.library Unbarring.theme) {} {} "" none Unbarring.content = some (.ok p) ∧
    perform (Unbarring.library Unbarring.barredTheme) { bar := 2, beat := 8 } {} "" none
      Unbarring.barredContent = some (.ok q) ∧
    p.SoundsSame q ∧ p.events.map Event.beat = [2, 1, 1, 1, 1, 1, 1, 1] ∧ p.progress.barCount = 5 ∧
    q.progress.barCount = 7 := by
  obtain ⟨p, hp, hheard⟩ :=
    exists_performance (f := fun p ↦ (p.events.map Event.beat, p.progress.barCount))
      (b := ([2, 1, 1, 1, 1, 1, 1, 1], 5))
    (x := perform (Unbarring.library Unbarring.theme) {} {} "" none Unbarring.content)
      (by decide +kernel)
  obtain ⟨q, hq, hbars⟩ := exists_performance (f := fun q ↦ q.progress.barCount) (b := 7)
    (x := perform (Unbarring.library Unbarring.barredTheme) { bar := 2, beat := 8 } {} "" none
      Unbarring.barredContent) (by decide +kernel)
  have hstandard : (Unbarring.library Unbarring.theme).OnlyStandard :=
    Repertoire.onlyStandard_standard
  have hplugins : (Unbarring.library Unbarring.theme).plugins = ∅ := rfl
  have hrepertoire : (Unbarring.library Unbarring.barredTheme).edited Symbol.unbarred =
      (Unbarring.library Unbarring.theme).edited Symbol.unbarred := rfl
  have hcontent : Symbol.editAll Symbol.unbarred Unbarring.barredContent =
      Symbol.editAll Symbol.unbarred Unbarring.content := rfl
  have hsettings : ({ bar := 2, beat := 8 } : Settings).unbarred = ({} : Settings).unbarred := by
    -- The equation of the definition: `rfl` would compare the lengths of bars first.
    simp only [Settings.unbarred]
  obtain ⟨theme, bar, index, bar', index', he, -⟩ | ⟨p', q', hp', hq', hpq⟩ :=
    perform_unbarred hstandard hplugins hrepertoire
      (rfl : Instrument.edited Symbol.unbarred {} = Instrument.edited Symbol.unbarred {}) hcontent
      hsettings "" none
  · cases hp.symm.trans he
  · obtain rfl : p = p' := Except.ok.inj (Option.some.inj (hp.symm.trans hp'))
    obtain rfl : q = q' := Except.ok.inj (Option.some.inj (hq.symm.trans hq'))
    obtain ⟨hbeats, hcount⟩ := Prod.mk.inj hheard
    exact ⟨p, q, hp, hq, hpq, hbeats, hcount, hbars⟩

end Rendition
