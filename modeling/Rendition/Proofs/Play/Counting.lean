import Rendition.Proofs.Play.Frame
import Rendition.Proofs.Play.Placement

namespace Rendition

namespace Progress

structure Coherent (p : Progress) : Prop where
  unbarred : p.barCount = 0 → p.barLast = 0 ∧ p.firstBarTime = 0
  unvoiced : p.voices = [] → p.voiceBeats = 0

structure Advances (bars : Nat) (p q : Progress) : Prop where
  barCount : q.barCount = p.barCount + bars
  frozen : 0 < p.barCount → q.barFirst = p.barFirst ∧ q.firstBarTime = p.firstBarTime
  coherent : p.Coherent → q.Coherent

namespace Advances

variable {p q r : Progress} {m n : Nat}

theorem trans (h : Advances m p q) (h' : Advances n q r) : Advances (m + n) p r where
  barCount := by rw [h'.barCount, h.barCount, Nat.add_assoc]
  frozen hp := by
    obtain ⟨hfirst, htime⟩ := h.frozen hp
    obtain ⟨hfirst', htime'⟩ := h'.frozen (by rw [h.barCount]; exact Nat.add_pos_left hp m)
    exact ⟨hfirst'.trans hfirst, htime'.trans htime⟩
  coherent hp := h'.coherent (h.coherent hp)

theorem update (p : Progress) (index : Nat) (duration beatCount : Float) (after : List String) :
    Advances 0 p { p with index, duration, beatCount, after } :=
  ⟨rfl, fun _ ↦ ⟨rfl, rfl⟩, fun h ↦ ⟨h.unbarred, h.unvoiced⟩⟩

theorem refl (p : Progress) : Advances 0 p p := .update p _ _ _ _

theorem lengthen (p : Progress) (beats : Float) : Advances 0 p (p.lengthen beats) := by
  unfold Progress.lengthen
  split
  next hzero =>
    exact ⟨rfl, fun hp ↦ absurd hzero (Nat.ne_of_gt hp), fun h ↦ ⟨h.unbarred, h.unvoiced⟩⟩
  next hne =>
    exact ⟨rfl, fun _ ↦ ⟨rfl, rfl⟩, fun h ↦ ⟨fun hzero ↦ absurd hzero hne, h.unvoiced⟩⟩

theorem nextVoice (p : Progress) : Advances 0 p p.nextVoice := by
  unfold Progress.nextVoice
  dsimp only
  split
  · refine ⟨rfl, fun _ ↦ ⟨rfl, rfl⟩, fun h ↦ ⟨h.unbarred, fun hnil ↦ ?_⟩⟩
    exact absurd hnil (List.append_ne_nil_of_right_ne_nil _ nofun)
  · exact .update p _ _ _ _

theorem closed (p : Progress) : Advances 1 p p.closed where
  barCount := rfl
  frozen hp := ⟨rfl, if_neg (by simpa using Nat.ne_of_gt hp)⟩
  coherent h := ⟨fun hzero ↦ absurd hzero (Nat.succ_ne_zero _), h.unvoiced⟩

theorem joined (p : Progress) {inner : Progress} (hinner : inner.barCount ≠ 0) :
    Advances inner.barCount p (p.joined inner) where
  barCount := by
    change p.barCount + 1 + (inner.barCount - 1) = p.barCount + inner.barCount
    omega
  frozen hp := by
    have hfirst : ¬(p.barCount == 0) = true := by simpa using Nat.ne_of_gt hp
    exact ⟨if_neg hfirst, if_neg hfirst⟩
  coherent h := by
    refine ⟨fun hzero ↦ ?_, h.unvoiced⟩
    change p.barCount + 1 + (inner.barCount - 1) = 0 at hzero
    omega

end Advances

/-- The overlay voices of a passage are over, and have left nothing behind. -/
def Settled (p : Progress) : Prop := p.voices = [] ∧ p.voiceBeats = 0

end Progress

open Progress

namespace Scope

variable {stage : Stage} {player : Player} {scope scope' : Scope} {s s' : Session}

theorem advances_endBar (scope : Scope) (terminal : Bool) :
    Advances (if scope.progress.beatsOpen == 0 then 0 else 1) scope.progress
      (scope.endBar terminal).progress := by
  rw [endBar_eq]
  split
  · exact .refl _
  · exact .closed _

theorem advances_playBarLine (scope : Scope) (bar : BarLine) :
    Advances (if scope.progress.beatsOpen == 0 then 0 else 1) scope.progress
      (scope.playBarLine bar).progress := by
  have hend := scope.advances_endBar bar.terminal
  unfold playBarLine
  cases bar.overlay with
  | true => exact hend.trans (.nextVoice _)
  | false => exact hend

theorem advances_joinBars (scope : Scope) (inner : Progress) :
    Advances inner.barCount scope.progress (scope.joinBars inner).progress := by
  rw [joinBars_eq]
  split
  next hzero =>
    rw [hzero]
    exact .lengthen _ _
  next hne => exact .joined _ hne

theorem advances_absorb (scope : Scope) (stage : Stage) (passage : Passage) :
    Advances passage.progress.barCount scope.progress (scope.absorb stage passage).progress :=
  (scope.advances_joinBars passage.progress).trans (.update _ _ _ _ _)

theorem advances_noted (scope : Scope) (stage : Stage) (s : Session) (note : Note) :
    Advances 0 scope.progress (scope.noted stage s note).1.progress :=
  (Advances.update _ _ _ _ _).trans (.lengthen _ _)

theorem answer_progress_eq {α : Type} {name : String} {access : Access} {script : Script α}
    {r : Except Fault α}
    (h : (answer stage player name access script scope).run s = some ((r, scope'), s')) :
    scope'.progress = scope.progress := by
  induction script generalizing scope s with
  | done | fail =>
    cases h
    rfl
  | play phrase overrides inner next ih =>
    rw [answer_play, Option.bind_eq_some_iff] at h
    obtain ⟨⟨u, s₁⟩, -, hrest⟩ := h
    exact ih u hrest
  | join passages next ih => exact ih _ h
  | remark message next ih =>
    rw [answer_remark] at h
    have hkept := ih h
    exact hkept
  | settings next ih => exact ih _ h
  | setSettings settings next ih =>
    rw [answer_setSettings] at h
    have hkept := ih h
    exact hkept
  | trace next ih => exact ih _ h
  | record entry next ih =>
    rw [answer_record] at h
    exact ih _ h
  | progress next ih => exact ih _ h

section Added

variable (stage player) (scope s)

/-- The passage that playing a symbol adds: that of a phrase, of a theme that is not being played
already, or the one that a function hands over. -/
def added? : Symbol → Option Passage
  | .phrase times content => result? (outcome (scope.playRepeated player content times.toInt) s)
  | .theme name => do
    let content ← stage.repertoire.themes.find? name
    if name ∈ s.active then none
    else result? (outcome (scope.playRepeated player content (-1)) (s.entering name))
  | .call name arguments => do
    let function ← stage.repertoire.functions.find? name
    let values ← (arguments.mapM Value.ofArgument).toOption
    let ((answered, _), _) ← (answer stage player name function.access (function.body name values)
      scope).run s
    answered.toOption.join
  | _ => none

def barsOf (symbol : Symbol) : Nat :=
  match symbol with
  | .barLine _ => if scope.progress.beatsOpen == 0 then 0 else 1
  | _ => (scope.added? stage player s symbol).elim 0 (·.progress.barCount)

end Added

theorem advances_take {r : Except Fault Passage} (h : (scope.take stage s r).1 = .ok scope') :
    Advances (r.toOption.elim 0 (·.progress.barCount)) scope.progress scope'.progress := by
  cases r with
  | error fault => cases h
  | ok passage =>
    obtain rfl := Except.ok.inj h
    exact scope.advances_absorb stage passage

theorem advances_receive {name : String} {r : Except Fault (Option Passage)}
    (h : (scope.receive stage s name r).1 = .ok scope') :
    Advances (r.toOption.join.elim 0 (·.progress.barCount)) scope.progress scope'.progress := by
  match r, h with
  | .ok none, h | .error (.setting ..), h | .error (.argument ..), h =>
    obtain rfl := Except.ok.inj h
    exact .refl _
  | .ok (some passage), h =>
    obtain rfl := Except.ok.inj h
    exact scope.advances_absorb stage passage

theorem Step.advances {symbol : Symbol} (h : Step stage player scope s symbol (.ok scope') s') :
    Advances (scope.barsOf stage player s symbol) scope.progress scope'.progress := by
  generalize hr : Except.ok scope' = r at h
  cases h with
  | note note =>
    obtain rfl := Except.ok.inj hr
    exact scope.advances_noted stage s note
  | tie =>
    obtain rfl := Except.ok.inj hr
    exact .refl _
  | barLine bar =>
    obtain rfl := Except.ok.inj hr
    exact scope.advances_playBarLine bar
  | marking kind =>
    obtain rfl := Except.ok.inj hr
    exact .update _ _ _ _ _
  | inert symbol hs =>
    obtain rfl := Except.ok.inj hr
    cases symbol <;> first | exact .refl _ | cases hs
  | phrase times content r s₁ h =>
    have hbars : scope.barsOf stage player s (.phrase times content) =
        r.toOption.elim 0 (·.progress.barCount) := by
      simp [barsOf, added?, h, result?]
    rw [hbars]
    exact advances_take hr.symm
  | undefined => cases hr
  | active name content hc ha =>
    obtain rfl := Except.ok.inj hr
    have hbars : scope.barsOf stage player s (.theme name) = 0 := by
      simp [barsOf, added?, hc, ha]
    rw [hbars]
    exact .refl _
  | theme name content hc ha r s₁ h =>
    have hbars : scope.barsOf stage player s (.theme name) =
        r.toOption.elim 0 (·.progress.barCount) := by
      simp [barsOf, added?, hc, ha, h, result?]
    rw [hbars]
    exact advances_take hr.symm
  | unknown name arguments hf =>
    obtain rfl := Except.ok.inj hr
    have hbars : scope.barsOf stage player s (.call name arguments) = 0 := by
      simp [barsOf, added?, hf]
    rw [hbars]
    exact .refl _
  | formula name arguments function source fault hf hv =>
    obtain rfl := Except.ok.inj hr
    have hbars : scope.barsOf stage player s (.call name arguments) = 0 := by
      simp [barsOf, added?, hf, hv, Except.toOption]
    rw [hbars]
    exact .refl _
  | call name arguments function values hf hv r scope₁ s₁ h =>
    have hbars : scope.barsOf stage player s (.call name arguments) =
        r.toOption.join.elim 0 (·.progress.barCount) := by
      simp [barsOf, added?, hf, hv, h, Except.toOption]
    rw [hbars, ← answer_progress_eq h]
    exact advances_receive hr.symm

theorem playFrom_advances {index : Nat} {symbols : List Symbol}
    (h : outcome (scope.playFrom stage player index symbols) s = some (.ok scope', s')) :
    ∃ bars, Advances bars scope.progress scope'.progress := by
  induction symbols generalizing index scope s with
  | nil =>
    cases h
    exact ⟨0, .refl _⟩
  | cons symbol rest ih =>
    rw [outcome_playFrom_cons, andThen_eq_ok] at h
    obtain ⟨scope₁, s₁, hsymbol, hrest⟩ := h
    obtain ⟨bars, hbars⟩ := ih hrest
    exact ⟨_, ((Advances.update _ index _ _ _).trans (step_of_outcome hsymbol).advances).trans
      hbars⟩

theorem advances_settleVoices (scope : Scope) :
    Advances 0 scope.progress scope.settleVoices.progress := by
  have hnext := Advances.nextVoice scope.progress
  unfold settleVoices
  dsimp only
  split
  · exact .refl _
  · split <;> exact ⟨hnext.barCount, hnext.frozen, fun h ↦ ⟨(hnext.coherent h).unbarred,
      fun _ ↦ rfl⟩⟩

theorem advances_conclude (scope : Scope) (s : Session) :
    Advances 0 scope.progress (scope.conclude s).progress :=
  have hsettled := scope.advances_settleVoices
  ⟨hsettled.barCount, hsettled.frozen, fun h ↦ ⟨(hsettled.coherent h).unbarred,
    (hsettled.coherent h).unvoiced⟩⟩

theorem settled_conclude (h : scope.progress.Coherent) (s : Session) :
    (scope.conclude s).progress.Settled := by
  by_cases hvoices : scope.progress.voices = []
  · rw [conclude_eq hvoices]
    exact ⟨hvoices, h.unvoiced hvoices⟩
  · have hsettle : scope.settleVoices.progress.Settled := by
      unfold settleVoices
      dsimp only
      rw [if_neg (by simpa using hvoices)]
      split <;> exact ⟨rfl, rfl⟩
    exact hsettle

theorem coherent_enter (stage : Stage) (settings : Settings) (s : Session) (nested : Bool) :
    (enter stage settings s nested).progress.Coherent :=
  ⟨fun _ ↦ ⟨rfl, rfl⟩, fun _ ↦ rfl⟩

theorem settled_join (scope : Scope) (stage : Stage) (passages : List Passage) (s : Session) :
    (scope.join stage passages s).1.progress.Settled := by
  have heach : ∀ (index : Nat) (inner : Scope) (s : Session), inner.progress.Coherent →
      (addEach stage index passages inner s).1.progress.Coherent := by
    induction passages with
    | nil => exact fun _ _ _ h ↦ h
    | cons passage rest ih =>
      intro index inner s h
      have hindex : Advances 0 inner.progress (inner.atIndex index).progress := .update _ _ _ _ _
      exact ih _ _ _ ((hindex.trans ((inner.atIndex index).advances_absorb stage passage)).coherent
        h)
  have hjoined :=
    settled_conclude (heach 0 (enter stage scope.settings s true) s (coherent_enter ..))
      (addEach stage 0 passages (enter stage scope.settings s true) s).2
  exact ⟨hjoined.1, hjoined.2⟩

end Scope

/-- The bars of a passage, whatever functions its symbols call and whatever they hand over. Before
the first bar its counters are zero, and its first bar stays as it is from then on. A bar line adds
a bar if beats are open, and leaves none; a symbol that adds a passage counts all the bars of that,
and nothing else counts any. A passage has no voices once it is over. -/
theorem bars_advance (stage : Stage) :
    (∀ player settings remarks nested xs s₀ scope s,
      outcome (({ Scope.enter stage settings s₀ nested with remarks } : Scope).playFrom stage
        player 0 xs) s₀ = some (.ok scope, s) →
      (scope.progress.barCount = 0 → scope.progress.barLast = 0 ∧ scope.progress.firstBarTime = 0) ∧
      (∀ ys scope' s', outcome (scope.playFrom stage player xs.length ys) s =
        some (.ok scope', s') →
        scope.progress.barCount ≤ scope'.progress.barCount ∧
          (0 < scope.progress.barCount → scope'.progress.barFirst = scope.progress.barFirst ∧
            scope'.progress.firstBarTime = scope.progress.firstBarTime)) ∧
      ∀ symbol scope' s',
        outcome ((scope.atIndex xs.length).playSymbol stage player symbol) s =
          some (.ok scope', s') →
          scope'.progress.barCount =
              scope.progress.barCount + (scope.atIndex xs.length).barsOf stage player s symbol ∧
            ∀ bar, symbol = .barLine bar → scope'.progress.beatsOpen == 0) ∧
    (∀ (scope : Scope) (passage : Passage),
      (scope.absorb stage passage).progress.barCount = scope.progress.barCount +
        passage.progress.barCount) ∧
    (∀ depth settings remarks symbols s passage s',
      outcome (playerOf stage depth settings remarks symbols) s = some (.ok passage, s') →
        passage.progress.Settled) ∧
    (∀ settings symbols s last passage s',
      outcome (playTrack stage settings symbols) s = some (.ok (last, passage), s') →
      passage.progress.Settled) ∧
    ∀ (scope : Scope) (passages : List Passage) (s : Session),
      (scope.join stage passages s).1.progress.Settled := by
  refine ⟨?_, fun scope passage ↦ (scope.advances_absorb stage passage).barCount, ?_, ?_,
    fun scope passages s ↦ scope.settled_join stage passages s⟩
  · intro player settings remarks nested xs s₀ scope s hrun
    obtain ⟨_, hpast⟩ := Scope.playFrom_advances hrun
    refine ⟨(hpast.coherent (Scope.coherent_enter stage settings s₀ nested)).unbarred, ?_, ?_⟩
    · intro ys scope' s' hrest
      obtain ⟨bars, hrest⟩ := Scope.playFrom_advances hrest
      exact ⟨hrest.barCount ▸ Nat.le_add_right _ _, hrest.frozen⟩
    · intro symbol scope' s' hsymbol
      have hstep := Scope.step_of_outcome hsymbol
      refine ⟨hstep.advances.barCount, ?_⟩
      rintro bar rfl
      cases hsymbol
      exact (scope.atIndex xs.length).beatsOpen_playBarLine bar
  · intro depth settings remarks symbols s passage s' h
    obtain ⟨_, scope, -, hrun, rfl⟩ := playerOf_ok h
    obtain ⟨bars, hbars⟩ := Scope.playFrom_advances hrun
    exact Scope.settled_conclude (hbars.coherent (Scope.coherent_enter stage settings s true)) s'
  · intro settings symbols s last passage s' h
    obtain ⟨scope, hrun, -, rfl⟩ := playTrack_ok h
    obtain ⟨bars, hbars⟩ := Scope.playFrom_advances hrun
    exact Scope.settled_conclude (hbars.coherent (Scope.coherent_enter stage settings s false)) s'

namespace Counting

def note (degree : UInt8) : Symbol := .note { pitches := [{ degree := .scale degree }] }

def bars : Symbol :=
  .phrase (-1) [.barLine {}, note 2, .barLine { overlay := true }, note 3, .barLine {}, note 4]

def content : List Symbol := [note 1, bars, note 5, .barLine {}]

def stage : Stage := Repertoire.standard.stage {}

end Counting

open Counting in
theorem bars_advance_voices : ∃ scope s scope' s' last passage s'',
    outcome ((Scope.enter stage {} {} false).playFrom stage (playerOf stage 1) 0 (content.take 1))
      {} = some (.ok scope, s) ∧
    outcome ((scope.atIndex 1).playSymbol stage (playerOf stage 1) bars) s = some (.ok scope', s') ∧
    (scope.progress.barCount, (scope.atIndex 1).barsOf stage (playerOf stage 1) s bars) = (0, 3) ∧
    scope'.progress.barCount = 0 + 3 ∧
    outcome (playTrack stage {} content) {} = some (.ok (last, passage), s'') ∧
    (passage.progress.barCount, passage.progress.barFirst, passage.progress.duration) = (4, 2, 4) ∧
    passage.progress.Settled := by
  obtain ⟨hwalk, -, -, hsettled, -⟩ := bars_advance stage
  obtain ⟨_, s', hboth, hbars⟩ := exists_of_result? (f := fun bars ↦ bars) (b := (0, 3))
    (x := andThen (outcome ((Scope.enter stage {} {} false).playFrom stage (playerOf stage 1) 0
      (content.take 1)) {})
      fun scope s ↦ (outcome ((scope.atIndex 1).playSymbol stage (playerOf stage 1) bars) s).map
        fun r ↦ (r.1.map fun _ ↦ (scope.progress.barCount,
          (scope.atIndex 1).barsOf stage (playerOf stage 1) s bars), r.2))
    (by decide +kernel)
  obtain ⟨scope, s, hfirst, hnext⟩ := andThen_eq_ok.mp hboth
  obtain ⟨⟨fault | scope', s''⟩, hsymbol, he⟩ := Option.map_eq_some_iff.mp hnext
  · cases he
  obtain ⟨⟨last, passage⟩, _, htrack, hpassage⟩ := exists_of_result?
    (f := fun x ↦ (x.2.progress.barCount, x.2.progress.barFirst, x.2.progress.duration))
    (b := (4, 2, 4)) (x := outcome (playTrack stage {} content) {}) (by decide +kernel)
  obtain rfl := Except.ok.inj (congrArg Prod.fst he)
  obtain ⟨hzero, hadded⟩ := Prod.mk.inj hbars
  have hrun := hwalk (playerOf stage 1) {} [] false (content.take 1) {} scope s hfirst
  obtain ⟨hcount, -⟩ := hrun.2.2 bars scope' s'' hsymbol
  rw [hzero, show (content.take 1).length = 1 from rfl, hadded] at hcount
  exact ⟨scope, s, scope', s'', last, passage, _, hfirst, hsymbol, hbars, hcount, htrack, hpassage,
    hsettled _ _ _ _ _ _ htrack⟩

end Rendition
