import Rendition.Proofs.Play.Entrances
import Rendition.Proofs.Play.Nesting
import Rendition.Proofs.Score.Parts
import Rendition.Proofs.Script.Transposition

namespace Rendition

section Raise

variable (n : Int32)

def Scope.raise (scope : Scope) : Scope where
  settings := scope.settings.raise n
  progress := scope.progress.raise n
  remarks := scope.remarks.map (Remark.raise n)
  events := scope.events
  marks := scope.marks
  traceStart := scope.traceStart
  nested := scope.nested

def Passage.raise (passage : Passage) : Passage where
  events := passage.events
  marks := passage.marks
  remarks := passage.remarks.map (Remark.raise n)
  progress := passage.progress.raise n

def Performance.raise (performance : Performance) : Performance where
  id := performance.id
  instrument := performance.instrument
  events := performance.events.map (Event.raise n)
  marks := performance.marks
  remarks := performance.remarks.map (Remark.raise n)
  progress := performance.progress.raise n
  effects := performance.effects

def raiseAnswer {α : Type} (raise : α → α) (x : Except Fault α × Session) :
    Except Fault α × Session :=
  (x.1.map raise, x.2.raise n)

end Raise

variable {n : Int32} {stage : Stage}

theorem Remark.within_raise (r : Remark) (place : Place) (time : Float) :
    (r.raise n).within place time = (r.within place time).raise n := by
  obtain ⟨finding, path⟩ := r
  cases finding <;> rfl

namespace Progress

variable (p : Progress)

theorem lengthen_raise (beats : Float) :
    (p.raise n).lengthen beats = (p.lengthen beats).raise n := by
  have hcount : (p.raise n).barCount = p.barCount := rfl
  unfold lengthen
  rw [hcount]
  split <;> rfl

theorem nextVoice_raise : (p.raise n).nextVoice = p.nextVoice.raise n := by
  have hends : ((p.raise n).duration != 0 || (p.raise n).beatCount != 0) =
      (p.duration != 0 || p.beatCount != 0) := rfl
  unfold nextVoice
  rw [hends]
  split <;> rfl

end Progress

namespace Scope

variable (scope : Scope)

theorem remark_raise (finding : Finding) :
    (scope.raise n).remark (finding.raise n) = (scope.remark finding).raise n := by
  have hremarks : scope.remarks.map (Remark.raise n) ++
      [Remark.located (finding.raise n) scope.place] =
      (scope.remarks ++ [Remark.located finding scope.place]).map (Remark.raise n) := by
    rw [List.map_append]
    rfl
  exact congrArg (fun remarks ↦ { scope.raise n with remarks }) hremarks

theorem barRemarks_raise (beats time : Float) :
    (scope.raise n).barRemarks beats time = (scope.barRemarks beats time).map (Remark.raise n) := by
  have hfull : (scope.raise n).isFull beats = scope.isFull beats := rfl
  unfold barRemarks
  rw [hfull]
  split <;> rfl

theorem endBar_raise (terminal : Bool) :
    (scope.raise n).endBar terminal = (scope.endBar terminal).raise n := by
  have hopen : (scope.raise n).progress.beatsOpen = scope.progress.beatsOpen := rfl
  have hleft : ((scope.raise n).progress.barCount == 0 && (scope.raise n).nested || terminal) =
      (scope.progress.barCount == 0 && scope.nested || terminal) := rfl
  rw [endBar_eq, endBar_eq, hopen, hleft]
  split
  · rfl
  · simp only [raise, List.map_append, apply_ite (List.map (Remark.raise n)), ← barRemarks_raise]
    rfl

theorem playBarLine_raise (bar : BarLine) :
    (scope.raise n).playBarLine bar = (scope.playBarLine bar).raise n := by
  unfold playBarLine
  dsimp only
  rw [endBar_raise]
  split
  · have hnext := (scope.endBar bar.terminal).progress.nextVoice_raise (n := n)
    exact congrArg (fun p : Progress ↦ { (scope.endBar bar.terminal).raise n with
      progress := p }) hnext
  · rfl

theorem joinBars_raise (inner : Progress) :
    (scope.raise n).joinBars (inner.raise n) = (scope.joinBars inner).raise n := by
  have hcount : (inner.raise n).barCount = inner.barCount := rfl
  have hleft : ((scope.raise n).progress.barCount == 0 && (scope.raise n).nested) =
      (scope.progress.barCount == 0 && scope.nested) := rfl
  rw [joinBars_eq, joinBars_eq, hcount, hleft]
  split
  · exact congrArg (fun p : Progress ↦ { scope.raise n with progress := p })
      (scope.progress.lengthen_raise _)
  · simp only [raise, List.map_append, apply_ite (List.map (Remark.raise n)), ← barRemarks_raise]
    rfl

theorem settleVoices_raise : (scope.raise n).settleVoices = scope.settleVoices.raise n := by
  have hvoices : (scope.raise n).progress.voices = scope.progress.voices := rfl
  have hnext : (scope.raise n).progress.nextVoice = scope.progress.nextVoice.raise n :=
    scope.progress.nextVoice_raise
  unfold settleVoices
  rw [hvoices, hnext]
  dsimp only
  split
  · rfl
  · generalize scope.progress.nextVoice = p
    have hlast : (p.raise n).voices = p.voices := rfl
    rw [hlast]
    cases p.voices.any fun d ↦ voiceTolerance < (longest p.voices - d).abs with
    | false => rfl
    | true =>
      have hremark := remark_raise (n := n) { scope with progress := { p with voices := [] } }
        (.diffDuration (longest p.voices) p.voices)
      exact congrArg (fun s : Scope ↦ { s with
        progress := { s.progress with
          duration := longest p.voices
          beatCount := s.progress.voiceBeats
          voiceBeats := 0 } }) hremark

theorem conclude_raise (s : Session) :
    (scope.raise n).conclude (s.raise n) = (scope.conclude s).raise n := by
  have htrace (k : Nat) : (Trace.raise n s.trace).drop k = Trace.raise n (s.trace.drop k) :=
    List.map_drop.symm
  unfold conclude
  rw [settleVoices_raise]
  dsimp only [raise, Session.raise]
  rw [htrace]
  rfl

theorem absorb_raise (hp : stage.repertoire.plugins = ∅) (passage : Passage) :
    (scope.raise n).absorb stage (passage.raise n) = (scope.absorb stage passage).raise n := by
  have hcollect (passage : Passage) (marks : Marks) :
      stage.repertoire.plugins.collect passage marks = marks := by
    rw [hp]
    rfl
  have hinner : (passage.raise n).progress = passage.progress.raise n := rfl
  have hwithin :
      (passage.raise n).remarks.map
      (·.within (scope.raise n).place (scope.raise n).progress.duration) =
      (passage.remarks.map (·.within scope.place scope.progress.duration)).map
      (Remark.raise n) := by
    change (passage.remarks.map (Remark.raise n)).map _ = _
    rw [List.map_map, List.map_map]
    exact List.map_congr_left fun r _ ↦ r.within_raise _ _
  have hremarks (scope : Scope) (inner : List Remark) :
      (scope.raise n).remarks ++ inner.map (Remark.raise n) =
      (scope.remarks ++ inner).map (Remark.raise n) :=
    List.map_append.symm
  unfold absorb
  dsimp only
  rw [hcollect, hcollect, hinner, joinBars_raise, hwithin, hremarks]
  rfl

variable (hp : stage.repertoire.plugins = ∅)
include hp

theorem add_raise (passage : Passage) (s : Session) :
    (scope.raise n).add stage (passage.raise n) (s.raise n) =
      ((scope.add stage passage s).1.raise n, (scope.add stage passage s).2.raise n) := by
  rw [add, absorb_raise scope hp]
  exact congrArg (Prod.mk _) (s.later_raise _ _ _)

theorem take_raise (s : Session) (r : Except Fault Passage) :
    (scope.raise n).take stage (s.raise n) (r.map (Passage.raise n)) =
      raiseAnswer n (Scope.raise n) (scope.take stage s r) := by
  cases r with
  | error fault => rfl
  | ok passage =>
    have hadd := scope.add_raise (n := n) hp passage s
    exact congrArg (fun x : Scope × Session ↦ (Except.ok x.1, x.2)) hadd

theorem receive_raise (s : Session) (name : String) (r : Except Fault (Option Passage)) :
    (scope.raise n).receive stage (s.raise n) name (r.map (Option.map (Passage.raise n))) =
      raiseAnswer n (Scope.raise n) (scope.receive stage s name r) := by
  match r with
  | .ok none | .error (.undefinedTheme ..) => rfl
  | .ok (some passage) =>
    have hadd := scope.add_raise (n := n) hp passage s
    exact congrArg (fun x : Scope × Session ↦ (Except.ok x.1, x.2)) hadd
  | .error (.setting key fault) =>
    have hremark := remark_raise (n := n) scope (.function name (Fault.setting key fault).message)
    exact congrArg (fun scope : Scope ↦ (Except.ok scope, s.raise n)) hremark
  | .error (.argument function fault) =>
    have hremark :=
      remark_raise (n := n) scope (.function name (Fault.argument function fault).message)
    exact congrArg (fun scope : Scope ↦ (Except.ok scope, s.raise n)) hremark

omit hp in
theorem begin_raise (s : Session) (settings : Settings) (remarks : List Remark) :
    begin stage (s.raise n) (settings.raise n) (remarks.map (Remark.raise n)) =
      (begin stage s settings remarks).raise n := by
  have hlength : (s.raise n).trace.length = s.trace.length := List.length_map _
  unfold begin enter
  rw [hlength]
  rfl

theorem noted_raise {note : Note} (s : Session) (hk : scope.settings.key ≠ [])
    (hm : note.IsMovable stage.names) (h : Semitones.Fit (note.sums stage scope.settings s.trace))
    (h' : Semitones.Fit (note.sums stage (scope.settings.raise n) (Trace.raise n s.trace))) :
    (scope.raise n).noted stage (s.raise n) note =
      ((scope.noted stage s note).1.raise n, (scope.noted stage s note).2.raise n) := by
  have hplay : note.play stage (scope.raise n).settings (s.raise n) (scope.raise n).progress = _ :=
    Note.play_raise hp scope.progress hk hm h h'
  unfold noted
  rw [hplay]
  rcases note.play stage scope.settings s scope.progress with ⟨outcome, s', p⟩
  have hremarks (inner : List Remark) : (scope.raise n).remarks ++ inner.map (Remark.raise n) =
      (scope.remarks ++ inner).map (Remark.raise n) := List.map_append.symm
  dsimp only
  rw [Progress.lengthen_raise, hremarks]
  rfl

end Scope

theorem raise_repetition {remarks : List Remark} (h : ∀ r ∈ remarks,
    r.finding = .unexpectedCoda ∨ r.finding = .multiCoda ∨ ∃ order, r.finding =
    .unexpectedVolta order) :
    remarks.map (Remark.raise n) = remarks := by
  refine (List.map_congr_left ?_).trans (List.map_id _)
  rintro ⟨finding, path⟩ hr
  obtain rfl | rfl | ⟨order, rfl⟩ := h _ hr <;> rfl

theorem Settings.override_raise (settings : Settings) {overrides : Overrides}
    (hk : overrides.key = none) :
    (settings.raise n).override overrides = (settings.override overrides).raise n := by
  simp [override, raise, hk]

/-- A symbol whose pitches move with the key, and which does not change the key itself. -/
def Symbol.IsMovable (names : PitchNames) : Symbol → Prop
  | .note written => written.IsMovable names
  | .call function _ => function ∉ Script.keyed
  | _ => True

instance (names : PitchNames) : DecidablePred (Symbol.IsMovable names)
  | .note written => inferInstanceAs (Decidable (written.IsMovable names))
  | .call function _ => inferInstanceAs (Decidable (function ∉ Script.keyed))
  | .phrase .. | .theme _ | .tie | .barLine _ | .clef _ | .comment _ | .space | .marking _ =>
    isTrue trivial

/-- No addition clips a pitch in the notes listed. -/
def NotesFit (stage : Stage) (notes : List Entrance) : Prop :=
  ∀ e ∈ notes, Semitones.Fit (e.note.sums stage e.scope.settings e.session.trace)

instance (stage : Stage) (notes : List Entrance) : Decidable (NotesFit stage notes) :=
  inferInstanceAs (Decidable (∀ e ∈ notes,
    Semitones.Fit (e.note.sums stage e.scope.settings e.session.trace)))

structure Stage.Movable (stage : Stage) : Prop where
  standard : stage.repertoire.OnlyStandard
  plugins : stage.repertoire.plugins = ∅
  themes : ∀ name content, stage.repertoire.themes.find? name = some content →
    Symbol.Throughout (Symbol.IsMovable stage.names) content

def Player.Raises (n : Int32) (stage : Stage) (player : Player) (inner : Listing) : Prop :=
  ∀ around around' settings remarks symbols s, settings.key ≠ [] →
    Symbol.Throughout (Symbol.IsMovable stage.names) symbols →
    NotesFit stage (inner around settings remarks symbols s) →
    NotesFit stage (inner around' (settings.raise n) (remarks.map (Remark.raise n)) symbols
      (s.raise n)) →
    outcome (player (settings.raise n) (remarks.map (Remark.raise n)) symbols) (s.raise n) =
      (outcome (player settings remarks symbols) s).map (raiseAnswer n (Passage.raise n))

section Run

variable {player : Player} {inner : Listing} {around around' : List Scope}
  (hplayer : player.Raises n stage inner)
include hplayer

theorem Scope.answer_raise {scope : Scope} {s : Session} {name : String} {access : Access}
    {phrases : List Phrase} {script script' : Script (Option Passage)}
    (hscript : Script.Raised n phrases script script')
    (hphrases : ∀ phrase ∈ phrases, Symbol.Throughout (Symbol.IsMovable stage.names) phrase.content)
    (hk : scope.settings.key ≠ [])
    (hfit : NotesFit stage ((scope.interludesOf stage player name access script s).flatMap
      (·.notes inner around))) (hfit' :
      NotesFit stage (((scope.raise n).interludesOf stage player name access script'
        (s.raise n)).flatMap (·.notes inner around'))) :
    (answer stage player name access script' (scope.raise n)).run (s.raise n) =
        ((answer stage player name access script scope).run s).map (fun x ↦
          ((x.1.1.map (Option.map (Passage.raise n)), x.1.2.raise n), x.2.raise n)) ∧
      ∀ r scope' s', (answer stage player name access script scope).run s = some ((r, scope'), s') →
        scope'.settings.key ≠ [] := by
  induction hscript generalizing scope with
  | done | fail =>
    refine ⟨rfl, ?_⟩
    intro r scope' s' h
    cases h
    exact hk
  | settings _ ih => exact ih _ hk hk hfit hfit'
  | @setSettings settings next next' hk' _ ih =>
    rw [answer_setSettings, answer_setSettings]
    exact @ih { scope with settings } hk' hfit hfit'
  | @play phrase overrides next next' hp hkey hnext hnext' =>
    -- The overrides leave the key alone, so the inner passages are as far apart as their callers.
    rw [interludesOf, List.flatMap_cons] at hfit hfit'
    have hover : (scope.raise n).settings.override overrides =
        (scope.settings.override overrides).raise n :=
      scope.settings.override_raise hkey
    have hoverkey : (scope.settings.override overrides).key ≠ [] := by
      simpa [Settings.override, hkey] using hk
    have hplayed :
        outcome (player ((scope.raise n).settings.override overrides) phrase.written.2
          phrase.written.1) (s.raise n) =
          (outcome (player (scope.settings.override overrides) phrase.written.2 phrase.written.1)
            s).map (raiseAnswer n (Passage.raise n)) := by
      have hraised :=
        hplayer (scope :: around) (scope.raise n :: around') (scope.settings.override overrides)
          phrase.written.2 phrase.written.1 s hoverkey
          (Phrase.throughout_written trivial (hphrases phrase hp))
      rw [raise_repetition fun _ ↦ Phrase.finding_of_mem_written, ← hover] at hraised
      exact hraised (fun e he ↦ hfit e (List.mem_append_left _ he)) fun e he ↦
        hfit' e (List.mem_append_left _ he)
    rw [answer_play, answer_play, playPhrase_full_run, playPhrase_full_run, hplayed]
    cases outcome (player (scope.settings.override overrides) phrase.written.2 phrase.written.1)
      s with
    | none =>
      refine ⟨rfl, ?_⟩
      intro r scope' s' h
      cases h
    | some x =>
      obtain ⟨r, s₁⟩ := x
      simp only [Option.map_some, Option.bind_some, raiseAnswer, hnext, hnext']
      cases r with
      | ok passage | error fault =>
        refine ⟨rfl, ?_⟩
        intro r scope' s' h
        cases h
        exact hk

theorem Scope.playRepeated_raise {scope : Scope} {s : Session} {content : List Symbol} {times : Int}
    (hs : Symbol.Throughout (Symbol.IsMovable stage.names) content) (hk : scope.settings.key ≠ [])
    (hfit : NotesFit stage (scope.repeatedNotes inner around content times s))
    (hfit' : NotesFit stage ((scope.raise n).repeatedNotes inner around' content times
      (s.raise n))) :
    outcome ((scope.raise n).playRepeated player content times) (s.raise n) =
      (outcome (scope.playRepeated player content times) s).map
        (raiseAnswer n (Passage.raise n)) := by
  have hraised := hplayer (scope :: around) (scope.raise n :: around') scope.settings
    (Repetition.unfold content times).2 (Repetition.unfold content times).1 s hk
    (hs.unfold trivial times) hfit
  rw [raise_repetition fun _ ↦ Repetition.finding_of_mem_unfold] at hraised
  exact hraised hfit'

variable (hstage : stage.Movable)
include hstage

theorem Scope.playSymbol_raise {scope : Scope} {s : Session} {symbol : Symbol}
    (hs : ∀ part ∈ symbol.parts, part.IsMovable stage.names) (hk : scope.settings.key ≠ [])
    (hfit : NotesFit stage (scope.symbolNotes stage player inner around s symbol))
    (hfit' : NotesFit stage ((scope.raise n).symbolNotes stage player inner around'
      (s.raise n) symbol)) :
    outcome ((scope.raise n).playSymbol stage player symbol) (s.raise n) =
        (outcome (scope.playSymbol stage player symbol) s).map (raiseAnswer n (Scope.raise n)) ∧
      ∀ scope' s', outcome (scope.playSymbol stage player symbol) s = some (.ok scope', s') →
        scope'.settings.key ≠ [] := by
  have hkept (hcall : ∀ name arguments, symbol ≠ .call name arguments) : ∀ scope' s',
      outcome (scope.playSymbol stage player symbol) s = some (.ok scope', s') →
      scope'.settings.key ≠ [] := by
    intro scope' s' h
    rw [(keeps_playSymbol hstage.standard h).2 fun name arguments hmem ↦
      hcall name arguments (List.mem_singleton.mp hmem).symm]
    exact hk
  have htake (s : Session) (r : Except Fault Passage) :=
    scope.take_raise (n := n) hstage.plugins s r
  have hremark (finding : Finding) : some (Except.ok ((scope.raise n).remark (finding.raise n)),
      s.raise n) =
      (some (Except.ok (scope.remark finding), s)).map (raiseAnswer n (Scope.raise n)) :=
    congrArg (fun scope : Scope ↦ some (Except.ok scope, s.raise n)) (scope.remark_raise finding)
  cases symbol with
  | note written =>
    refine ⟨?_, hkept nofun⟩
    have hmovable := hs _ (Symbol.mem_parts_self _)
    rw [outcome_note, outcome_note,
      noted_raise scope hstage.plugins s hk hmovable (hfit _ List.mem_cons_self)
      (hfit' _ List.mem_cons_self)]
    rfl
  | tie | clef | comment | space | marking => exact ⟨rfl, hkept nofun⟩
  | barLine bar =>
    refine ⟨?_, hkept nofun⟩
    change some (Except.ok ((scope.raise n).playBarLine bar), s.raise n) = _
    rw [scope.playBarLine_raise bar]
    rfl
  | phrase times content =>
    refine ⟨?_, hkept nofun⟩
    rw [outcome_phrase, outcome_phrase,
      playRepeated_raise hplayer (Symbol.throughout_phrase hs) hk hfit hfit', Option.map_map,
      Option.map_map]
    exact congrArg (Option.map · _) (funext fun x ↦ htake x.2 x.1)
  | theme name =>
    refine ⟨?_, hkept nofun⟩
    cases hc : stage.repertoire.themes.find? name with
    | none =>
      rw [outcome_theme_none _ _ _ _ hc, outcome_theme_none _ _ _ _ hc]
      rfl
    | some content =>
      by_cases ha : name ∈ s.active
      · have ha' : name ∈ (s.raise n).active := ha
        rw [outcome_theme_active _ _ _ hc ha, outcome_theme_active _ _ _ hc ha']
        exact hremark (.recursiveTrack name)
      · have ha' : name ∉ (s.raise n).active := ha
        simp only [symbolNotes, hc, if_neg ha] at hfit
        simp only [symbolNotes, hc, if_neg ha'] at hfit'
        have hplayed := playRepeated_raise hplayer (hstage.themes name content hc) hk hfit hfit'
        rw [outcome_theme _ _ _ hc ha, outcome_theme _ _ _ hc ha']
        change Option.map _ (outcome _ ((s.entering name).raise n)) = _
        rw [hplayed, Option.map_map, Option.map_map]
        exact congrArg (Option.map · _) (funext fun x ↦ htake x.2.leaving x.1)
  | call name arguments =>
    cases hf : stage.repertoire.functions.find? name with
    | none =>
      rw [outcome_call_none _ _ _ _ _ hf, outcome_call_none _ _ _ _ _ hf]
      refine ⟨hremark (.unknownFunction name), ?_⟩
      intro scope' s' h
      cases h
      exact hk
    | some function =>
      cases hv : arguments.mapM Value.ofArgument with
      | error e =>
        rw [outcome_call_error _ _ _ _ hf hv, outcome_call_error _ _ _ _ hf hv]
        refine ⟨hremark (.badExpression e.1 e.2.message), ?_⟩
        intro scope' s' h
        cases h
        exact hk
      | ok values =>
        rw [symbolNotes, interludes_eq stage player hf hv] at hfit hfit'
        obtain ⟨f, hmem, rfl, rfl⟩ := hstage.standard name function hf
        -- A function plays what the call hands to it, and that lies in the call.
        have hkeyed : f.1 ∉ Script.keyed := hs _ (Symbol.mem_parts_self _)
        have hphrases : ∀ phrase ∈ Script.phrasesOf values,
            Symbol.Throughout (Symbol.IsMovable stage.names) phrase.content :=
          fun phrase hp ↦ Value.throughout_call hv hs hp
        obtain ⟨hanswer, hkey⟩ :=
          answer_raise hplayer (Script.raised_standard (n := n) f hmem hkeyed f.1 values) hphrases
            hk hfit hfit'
        rw [outcome_call _ _ _ _ hf hv, outcome_call _ _ _ _ hf hv, hanswer, Option.map_map,
          Option.map_map]
        refine ⟨congrArg (Option.map · _) (funext fun x ↦
          x.1.2.receive_raise (n := n) hstage.plugins x.2 f.1 x.1.1), ?_⟩
        intro scope' s' h
        obtain ⟨⟨⟨r, scope₁⟩, s₁⟩, hrun, he⟩ := Option.map_eq_some_iff.mp h
        rw [receive_settings (congrArg Prod.fst he)]
        exact hkey r scope₁ s₁ hrun

theorem Scope.playFrom_raise {scope : Scope} {s : Session} {index : Nat} {symbols : List Symbol}
    (hs : Symbol.Throughout (Symbol.IsMovable stage.names) symbols) (hk : scope.settings.key ≠ [])
    (hfit : NotesFit stage (scope.notesFrom stage player inner around index symbols s))
    (hfit' : NotesFit stage ((scope.raise n).notesFrom stage player inner around' index symbols
      (s.raise n))) :
    outcome ((scope.raise n).playFrom stage player index symbols) (s.raise n) =
      (outcome (scope.playFrom stage player index symbols) s).map
        (raiseAnswer n (Scope.raise n)) := by
  induction symbols generalizing index scope s with
  | nil => rfl
  | cons symbol rest ih =>
    obtain ⟨hsymbol, hrest⟩ := Symbol.throughout_cons.mp hs
    rw [notesFrom] at hfit hfit'
    have hk' : (scope.atIndex index).settings.key ≠ [] := hk
    obtain ⟨hplayed, hkey⟩ := playSymbol_raise hplayer hstage hsymbol hk'
      (fun e he ↦ hfit e (List.mem_append_left _ he)) (fun e he ↦
        hfit' e (List.mem_append_left _ he))
    have hat : (scope.raise n).atIndex index = (scope.atIndex index).raise n := rfl
    rw [hat, hplayed] at hfit'
    rw [outcome_playFrom_cons, outcome_playFrom_cons, hat, hplayed]
    rcases hx : outcome ((scope.atIndex index).playSymbol stage player symbol)
      s with - | ⟨fault | scope₁, s₁⟩
    · rfl
    · rfl
    · rw [hx] at hfit hfit'
      exact ih hrest (hkey _ _ hx) (fun e he ↦ hfit e (List.mem_append_right _ he))
        fun e he ↦ hfit' e (List.mem_append_right _ he)

end Run

theorem playerOf_raise (hstage : stage.Movable) (depth : Nat) :
    (playerOf stage depth).Raises n stage (notesOf stage depth) := by
  induction depth with
  | zero =>
    intro around around' settings remarks symbols s _ _ _ _
    rfl
  | succ depth ih =>
    intro around around' settings remarks symbols s hk hs hfit hfit'
    simp only [notesOf] at hfit hfit'
    rw [Scope.begin_raise] at hfit'
    rw [outcome_playerOf, outcome_playerOf, Scope.begin_raise,
      Scope.playFrom_raise ih hstage hs hk hfit hfit', Option.map_map, Option.map_map]
    refine congrArg (Option.map · _) (funext ?_)
    rintro ⟨fault | scope, s'⟩
    · rfl
    · exact congrArg (fun passage ↦ (Except.ok passage, s'.raise n)) (scope.conclude_raise s')

namespace Performance

theorem dropFinalShort_raise (duration : Float) (remarks : List Remark) :
    dropFinalShort duration (remarks.map (Remark.raise n)) =
      (dropFinalShort duration remarks).map (Remark.raise n) := by
  have hshort : isFinalShort duration ∘ Remark.raise n = isFinalShort duration := by
    funext r
    obtain ⟨finding, path⟩ := r
    cases finding <;> rfl
  rw [dropFinalShort, dropFinalShort, ← List.map_reverse, List.eraseP_map, hshort, List.map_reverse]

theorem finalRemarks_raise (settings : Settings) (duration : Float) (instrument : String) :
    (finalRemarks settings duration instrument).map (Remark.raise n) =
      finalRemarks settings duration instrument := by
  rw [finalRemarks, List.map_append, List.map_map]
  split <;> rfl

end Performance

theorem Session.eventsAt_raise (s : Session) (ids : List Nat) :
    (s.raise n).eventsAt ids = (s.eventsAt ids).map (Event.raise n) := by
  simp only [eventsAt, List.map_filterMap]
  refine List.filterMap_congr ?_
  intro id _
  exact Array.getElem?_map

theorem Session.opening_raise (name : Option String) : (opening name).raise n = opening name := by
  simp [opening, raise, Trace.raise]

section Perform

variable {r : Repertoire} {settings : Settings} {instrument : Instrument} {name : Option String}
  {content : List Symbol}

/-- Raising the key raises the music and changes nothing else. -/
theorem perform_raise (n : Int32) (hr : r.OnlyStandard) (hp : r.plugins = ∅)
    (hk : settings.key ≠ [])
    (hs : Symbol.Throughout (Symbol.IsMovable instrument.pitchNames)
      (instrument.opening ++ content))
    (ht : ∀ name content, r.themes.find? name = some content →
      Symbol.Throughout (Symbol.IsMovable instrument.pitchNames) content)
    (hfit : NotesFit (r.stage instrument)
      ((r.opening settings instrument name content).notes (r.stage instrument)))
    (hfit' : NotesFit (r.stage instrument)
      ((r.opening (settings.raise n) instrument name content).notes (r.stage instrument)))
    (id : String) :
    perform r (settings.raise n) instrument id name content =
      (perform r settings instrument id name content).map (Except.map (Performance.raise n)) := by
  have hstage : (r.stage instrument).Movable := ⟨hr, hp, ht⟩
  have hcomplete (p : Performance) : r.plugins.complete p = p := by
    rw [hp]
    rfl
  have hrun := @Scope.playFrom_raise n (r.stage instrument) _ _ [] []
    (playerOf_raise hstage (r.depthOf (instrument.opening ++ content))) hstage
    (.enter (r.stage instrument) settings (.opening name) false) (.opening name) 0 _ hs hk hfit
  rw [Session.opening_raise] at hrun
  rw [perform_eq, perform_eq, outcome_playTrack, outcome_playTrack, Option.map_map, Option.map_map,
    Option.map_map]
  refine (congrArg (Option.map _) (hrun hfit')).trans ?_
  rw [Option.map_map]
  refine congrArg (Option.map · _) (funext ?_)
  rintro ⟨fault | scope, s⟩
  · rfl
  · have hend : (scope.raise n).conclude (s.raise n) = (scope.conclude s).raise n :=
      scope.conclude_raise s
    have hduration : ((scope.conclude s).raise n).progress.duration =
        (scope.conclude s).progress.duration := rfl
    have hremarks :
        Performance.dropFinalShort (scope.conclude s).progress.duration
            ((scope.conclude s).raise n).remarks ++
          Performance.finalRemarks (scope.raise n).settings (scope.conclude s).progress.duration
            instrument.name =
        (Performance.dropFinalShort (scope.conclude s).progress.duration
            (scope.conclude s).remarks ++
          Performance.finalRemarks scope.settings (scope.conclude s).progress.duration
            instrument.name).map (Remark.raise n) := by
      rw [List.map_append, ← Performance.dropFinalShort_raise, Performance.finalRemarks_raise]
      rfl
    simp only [Function.comp_apply, raiseAnswer, Except.map, hcomplete, hend, hduration, hremarks,
      Session.eventsAt_raise]
    rfl

end Perform

namespace Raising

def content : List Symbol :=
  [.note { pitches := [{ degree := .scale 3, chords := "m" }] },
    .phrase (-1) [.note { pitches := [{ degree := .retrace }] }], .tie,
    .note { pitches := [{ degree := .scale 3 }] },
    .note { pitches := [{ degree := .scale 1 }, { degree := .scale 1 }] }]

end Raising

theorem perform_raise_fourth : ∃ p,
    perform .standard { key := [0, 7], bar := 2 } {} "" none Raising.content = some (.ok p) ∧
    perform .standard { key := [5, 12], bar := 2 } {} "" none Raising.content =
      some (.ok (p.raise 5)) ∧
    p.events.map Event.pitch = [4, 11, 7, 14, 11, 18, 4, 11, 7, 14, 11, 18, 0, 7, 0, 7].map some ∧
    p.remarks.map Remark.finding = [.reduplicate [11], .reduplicate [11], .reduplicate [0, 7]] := by
  have hraised := @perform_raise .standard { key := [0, 7], bar := 2 } {} none Raising.content 5
    Repertoire.onlyStandard_standard rfl (by decide) (by decide +kernel) nofun (by decide +kernel)
    (by decide +kernel) ""
  obtain ⟨p, hp, hheard⟩ :=
    exists_performance (f := fun p ↦ (p.events.map Event.pitch, p.remarks.map Remark.finding))
      (b := ([4, 11, 7, 14, 11, 18, 4, 11, 7, 14, 11, 18, 0, 7, 0, 7].map some,
        [.reduplicate [11], .reduplicate [11], .reduplicate [0, 7]]))
    (x := perform .standard { key := [0, 7], bar := 2 } {} "" none Raising.content)
      (by decide +kernel)
  obtain ⟨hpitches, hfindings⟩ := Prod.mk.inj hheard
  rw [hp] at hraised
  exact ⟨p, hp, hraised, hpitches, hfindings⟩

/-- Settings without voices cannot be raised: what the trace records is then as in the key of
zero. -/
theorem exists_keyless_unraised :
    ¬∀ (n : Int32) (r : Repertoire) (settings : Settings) (content : List Symbol), r.OnlyStandard →
    r.plugins = ∅ → Symbol.Throughout (Symbol.IsMovable ∅) content →
    (∀ name content, r.themes.find? name = some content →
      Symbol.Throughout (Symbol.IsMovable ∅) content) →
    NotesFit (r.stage {}) ((r.opening settings {} none content).notes (r.stage {})) →
    NotesFit (r.stage {}) ((r.opening (settings.raise n) {} none content).notes (r.stage {})) →
    perform r (settings.raise n) {} "" none content =
      (perform r settings {} "" none content).map (Except.map (Performance.raise n)) := by
  intro hall
  have hraised := hall 1 .standard { key := [] } [.note { pitches := [{ degree := .scale 1 }] }]
    Repertoire.onlyStandard_standard rfl (by decide) nofun (by decide +kernel) (by decide +kernel)
  obtain ⟨p, hp, htrace⟩ :=
    exists_performance (f := fun p ↦ p.progress.trace.map (List.map Tone.offset)) (b := [[0]]) (x :=
      perform .standard { key := [] } {} "" none [.note { pitches := [{ degree := .scale 1 }] }])
    (by decide +kernel)
  have hsame : perform .standard (Settings.raise 1 { key := [] }) {} "" none
      [.note { pitches := [{ degree := .scale 1 }] }] = some (.ok p) := hp
  rw [hp, hsame] at hraised
  have hfixed : p = p.raise 1 := Except.ok.inj (Option.some.inj hraised)
  have htrace' : (p.raise 1).progress.trace.map (List.map Tone.offset) = [[0]] := hfixed ▸ htrace
  have hmap : (p.raise 1).progress.trace.map (List.map Tone.offset) =
      (p.progress.trace.map (List.map Tone.offset)).map (List.map (· + 1)) := by
    change (p.progress.trace.map (List.map (Tone.raise 1))).map (List.map Tone.offset) = _
    simp [Function.comp_def, Tone.raise]
  rw [hmap, htrace] at htrace'
  cases htrace'

end Rendition
