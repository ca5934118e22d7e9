import Rendition.Proofs.Number.Laws
import Rendition.Proofs.Play.Counting
import Rendition.Proofs.Play.Terminal

namespace Rendition

/-- The passage in which a bar that closes in `scope` is checked: the innermost one of which it is
not the first bar, or else the outermost. -/
def Scope.checker (scope : Scope) : (around : List Scope) → Scope
  | [] => scope
  | outer :: around => if scope.progress.barCount = 0 then outer.checker around else scope

/-- Whether what is to be done plays in its passage: symbols, or what is left of a function that
plays a phrase at most and hands it over. -/
def Task.IsModest : Task → Prop
  | .symbols _ _ => True
  | .script _ _ body => ∃ phrases, body.Modest phrases

namespace Moment

variable (stage : Stage)

/-- As `Reached`, where all passages around are added to one another as they have been played. -/
abbrev Carried : Moment → Moment → Prop :=
  Relation.ReflTransGen fun m m' ↦ Next stage m m' ∧ m'.task.IsModest

variable {stage}

def Closes (m : Moment) (line : BarLine) : Prop :=
  (∃ index rest, m.task = .symbols index (.barLine line :: rest)) ∧
    (m.scope.progress.beatsOpen == 0) = false

/-- The clock of the moment, moved by those of the passages around in turn. -/
def time (m : Moment) (around : List Scope) : Float :=
  around.foldl (fun time outer ↦ time + outer.progress.duration) m.scope.progress.duration

/-- The bar that closes at the moment, as it is to be checked where these passages are around. -/
structure Gives (m : Moment) (line : BarLine) (around : List Scope) (c : Closing) : Prop where
  line : c.line = line
  bar : c.bar = (m.scope.checker around).settings.bar
  beats : c.beats = m.scope.progress.beatsOpen
  time : c.time = m.time around

/-- The bar that closes at the moment is among the bars of a passage that had counted `count` bars
before them and has got to the counters `p`. -/
structure Bears (m : Moment) (line : BarLine) (around : List Scope) (count : Nat)
    (bars : List Closing) (p : Progress) : Prop where
  counted : 0 < p.barCount
  bar : ∃ before c after, bars = before ++ c :: after ∧ m.Gives line around c ∧
    (count + before.length = 0 ↔ ∀ scope ∈ m.scope :: around, scope.progress.barCount = 0) ∧
    (count + before.length = 0 → p.barFirst = c.beats ∧ p.firstBarTime = c.time)

end Moment

theorem Scope.checker_append (scope outer : Scope) (around : List Scope) :
    scope.checker (around ++ [outer]) =
      if ∀ s ∈ scope :: around, s.progress.barCount = 0 then outer else scope.checker around := by
  induction around generalizing scope with
  | nil => simp [checker]
  | cons first around ih =>
    rw [List.cons_append, checker, checker, ih]
    by_cases hzero : scope.progress.barCount = 0 <;> simp [hzero]

namespace Moment

variable {stage : Stage} {m : Moment} {line : BarLine} {around : List Scope} {count : Nat}
  {bars : List Closing} {p q : Progress}

theorem Bears.append (h : m.Bears line around count bars p) {n : Nat} (hq : p.Advances n q)
    (more : List Closing) :
    m.Bears line around count (bars ++ more) q := by
  obtain ⟨before, c, after, rfl, hgives, hfirst, hends⟩ := h.bar
  obtain ⟨hbarFirst, htime⟩ := hq.frozen h.counted
  refine ⟨hq.barCount ▸ Nat.add_pos_left h.counted n, before, c, after ++ more,
    by simp, hgives, hfirst, ?_⟩
  rw [hbarFirst, htime]
  exact hends

theorem Bears.prepend {more : List Closing} (h : m.Bears line around (count + more.length) bars p) :
    m.Bears line around count (more ++ bars) p := by
  obtain ⟨before, c, after, rfl, hgives, hfirst, hends⟩ := h.bar
  refine ⟨h.counted, more ++ before, c, after, by simp, hgives, ?_, ?_⟩
  · rw [List.length_append, ← Nat.add_assoc]
    exact hfirst
  · rw [List.length_append, ← Nat.add_assoc]
    exact hends

theorem bears_barLine {index : Nat} (hclose : (m.scope.progress.beatsOpen == 0) = false) :
    m.Bears line [] m.scope.progress.barCount ((m.scope.atIndex index).closings line)
      ((m.scope.atIndex index).playBarLine line).progress := by
  have hopen : ((m.scope.atIndex index).progress.beatsOpen == 0) = false := hclose
  have hend : ((m.scope.atIndex index).endBar line.terminal).progress =
      (m.scope.atIndex index).progress.closed := by
    rw [Scope.endBar_eq, hopen, if_neg Bool.false_ne_true]
  have hclosings : (m.scope.atIndex index).closings line =
      [⟨line, m.scope.progress.barCount == 0 && m.scope.nested, m.scope.settings.bar,
        m.scope.progress.beatsOpen, m.scope.progress.duration⟩] := by
    rw [Scope.closings, hopen, if_neg Bool.false_ne_true]
    rfl
  have hclosed : m.Bears line [] m.scope.progress.barCount ((m.scope.atIndex index).closings line)
      ((m.scope.atIndex index).endBar line.terminal).progress := by
    rw [hend, hclosings]
    refine ⟨Nat.succ_pos _, [], _, [], rfl, ⟨rfl, rfl, rfl, rfl⟩, by simp, fun hzero ↦ ⟨?_, ?_⟩⟩
    · exact (if_pos hzero).symm
    · exact if_pos (beq_of_eq hzero)
  unfold Scope.playBarLine
  dsimp only
  split
  · exact List.append_nil (Scope.closings _ _) ▸ hclosed.append (.nextVoice _) []
  · exact hclosed

theorem Bears.adopt {inner outer : Scope} (s : Session)
    (h : m.Bears line around 0 bars inner.progress)
    (hclose : (m.scope.progress.beatsOpen == 0) = false) (hopen : outer.progress.beatsOpen == 0) :
    m.Bears line (around ++ [outer]) outer.progress.barCount
      (outer.adopt (inner.conclude s).progress bars)
        (outer.absorb stage (inner.conclude s)).progress := by
  have hconclude := inner.advances_conclude s
  have hcounted : (inner.conclude s).progress.barCount ≠ 0 := by
    rw [hconclude.barCount]
    exact Nat.ne_of_gt h.counted
  obtain ⟨hbarFirst, hbarTime⟩ := hconclude.frozen h.counted
  have htime (c : Closing) (hc : c.time = m.time around) :
      outer.progress.duration + c.time = m.time (around ++ [outer]) := by
    rw [time, List.foldl_append, Number.add_comm, hc]
    rfl
  have habsorbed : 0 < (outer.absorb stage (inner.conclude s)).progress.barCount := by
    rw [Scope.barCount_absorb]
    omega
  obtain ⟨before, c, after, rfl, hgives, hfirst, hends⟩ := h.bar
  rw [Nat.zero_add] at hfirst hends
  have hzero : (∀ scope ∈ m.scope :: (around ++ [outer]), scope.progress.barCount = 0) ↔
      outer.progress.barCount = 0 ∧ before.length = 0 := by
    rw [hfirst, ← List.cons_append, List.forall_mem_append, List.forall_mem_singleton, and_comm]
  cases before with
  | nil =>
    obtain ⟨hfirstBeats, hfirstTime⟩ := hends rfl
    have hbeats : outer.progress.beatsOpen + (inner.conclude s).progress.barFirst = c.beats := by
      rw [hbarFirst, hfirstBeats, hgives.beats]
      exact Number.add_of_beq_zero hopen hclose
    refine ⟨habsorbed, [], _, _, rfl, ⟨hgives.line, ?_, ?_, ?_⟩, ?_, ?_⟩
    · rw [Scope.checker_append, if_pos (hfirst.mp rfl)]
    · exact hbeats.trans hgives.beats
    · exact (congrArg (outer.progress.duration + ·) (hbarTime.trans hfirstTime)).trans
        (htime c hgives.time)
    · rw [hzero]
      simp
    · intro hcount
      refine ⟨?_, ?_⟩
      · change (outer.joinBars (inner.conclude s).progress).progress.barFirst = _
        rw [Scope.joinBars_progress, if_neg hcounted]
        exact if_pos (beq_of_eq hcount)
      · rw [Scope.firstBarTime_absorb, if_pos ⟨hcount, hcounted⟩]
  | cons first before =>
    refine ⟨habsorbed, outer.adopt (inner.conclude s).progress (first :: before),
      c.later outer.progress.duration, after.map (.later outer.progress.duration), ?_,
      ⟨hgives.line, ?_, hgives.beats, ?_⟩, ?_, ?_⟩
    · simp [Scope.adopt]
    · rw [Scope.checker_append, if_neg fun hall ↦ Nat.succ_ne_zero _ (hfirst.mpr hall)]
      exact hgives.bar
    · exact (Number.add_comm _ _).trans (htime c hgives.time)
    · rw [hzero]
      simp [Scope.adopt]
    · intro hcount
      simp [Scope.adopt] at hcount

/-- Wherever the passage at `m₀` gets from there, the bar that closes at `m` is one of those to
come. -/
def Carries (stage : Stage) (m : Moment) (line : BarLine) (around : List Scope)
    (m₀ : Moment) : Prop :=
  match m₀.task with
  | .symbols index symbols => ∀ nested bars scope s', m₀.scope.AccountsFor nested bars →
      outcome (m₀.scope.playFrom stage (playerOf stage m₀.depth) index symbols) m₀.session =
      some (.ok scope, s') →
      m.Bears line around m₀.scope.progress.barCount
      (m₀.scope.closingsFrom stage (playerOf stage m₀.depth)
        (ledgerOf stage m₀.depth) index symbols m₀.session) scope.progress
  | .script name access script => ∀ held r scope s',
      (m₀.scope.answer stage (playerOf stage m₀.depth) name access script).run m₀.session =
      some ((r, scope), s') →
      (∀ fault, r = .error fault → fault.isFatal = false) →
      ∃ passage, r = .ok (some passage) ∧ m.Bears line around m₀.scope.progress.barCount
        (scope.adopt passage.progress (m₀.scope.answerClosings stage (playerOf stage m₀.depth)
          (ledgerOf stage m₀.depth) name access script held m₀.session)) (scope.absorb stage
          passage).progress

section Carries

variable {depth index : Nat} {outer scope : Scope} {s s₁ s' : Session} {symbol : Symbol}
  {rest : List Symbol} {scopes : List Scope} {settings : Settings} {remarks : List Remark}
  {content : List Symbol} {passage : Passage}

theorem Carries.enter (h : Carries stage m line around
      ⟨depth, scopes, .begin stage s settings remarks, s, .symbols 0 content⟩)
    (hclose : (m.scope.progress.beatsOpen == 0) = false) (hopen : outer.progress.beatsOpen == 0)
    (hremarks : barLengths remarks = [])
    (hplay : outcome (playerOf stage (depth + 1) settings remarks content) s =
      some (.ok passage, s₁)) :
    m.Bears line (around ++ [outer]) outer.progress.barCount
      (outer.adopt passage.progress (ledgerOf stage (depth + 1) settings remarks content s))
      (outer.absorb stage passage).progress := by
  obtain ⟨_, inner, ⟨⟩, hrun, rfl⟩ := playerOf_ok hplay
  exact (h _ _ inner s₁ (Scope.accountsFor_begin stage s settings hremarks) hrun).adopt s₁
    hclose hopen

theorem Carries.repeated (outer : Scope) {scope₁ : Scope} {t : Session} {times : Int}
    {r : Except Fault Passage}
    (h : Carries stage m line around ⟨depth, scopes,
      .begin stage s outer.settings (Repetition.unfold content times).2, s, .symbols 0
      (Repetition.unfold content times).1⟩)
    (hclose : (m.scope.progress.beatsOpen == 0) = false) (hopen : outer.progress.beatsOpen == 0)
    (hplay : outcome (outer.playRepeated (playerOf stage (depth + 1)) content times) s =
      some (r, s₁))
    (htake : (outer.take stage t r).1 = .ok scope₁) :
    m.Bears line (around ++ [outer]) outer.progress.barCount
      (outer.repeatedClosings (playerOf stage (depth + 1)) (ledgerOf stage (depth + 1))
        content times s)
      scope₁.progress := by
  cases r with
  | error fault => cases htake
  | ok passage =>
    cases htake
    rw [Scope.repeatedClosings, hplay]
    exact h.enter hclose hopen (barLengths_repetition fun _ ↦
      Repetition.finding_of_mem_unfold) hplay

theorem Bears.followed {scope₁ : Scope} {player : Player} {ledger : Ledger}
    (hsymbol : outcome ((scope.atIndex index).playSymbol stage player symbol) s =
      some (.ok scope₁, s₁))
    (h : m.Bears line around scope.progress.barCount ((scope.atIndex index).symbolClosings stage
      player ledger s symbol) scope₁.progress) {scope' : Scope}
    (hrest : outcome (scope₁.playFrom stage player (index + 1) rest) s₁ = some (.ok scope', s')) :
    m.Bears line around scope.progress.barCount
      (scope.closingsFrom stage player ledger index (symbol :: rest) s) scope'.progress := by
  rw [Scope.closingsFrom, hsymbol]
  obtain ⟨_, hadvances⟩ := Scope.playFrom_advances hrest
  exact h.append hadvances _

end Carries

/-- By induction on the way, from its end: a bar that is among those of a passage is among those of
the passage around, whose bars before it say whether it is the first there too. -/
theorem carries_of_carried (hr : stage.repertoire.Honest) (hcloses : m.Closes line)
    (hopen : ∀ outer ∈ m.around, outer.progress.beatsOpen == 0) {m₀ : Moment}
    (h : Carried stage m₀ m) :
    m₀.task.IsModest → ∃ around, m.around = around ++ m₀.around ∧
    Carries stage m line around m₀ := by
  obtain ⟨⟨index, rest, htask⟩, hclose⟩ := hcloses
  induction h using Relation.ReflTransGen.head_induction_on with
  | refl =>
    intro _
    refine ⟨[], rfl, ?_⟩
    unfold Carries
    rw [htask]
    intro nested bars scope s' _ hrun
    rw [Scope.outcome_playFrom_cons] at hrun
    exact .followed rfl (bears_barLine hclose) hrun
  | head hstep hpath ih =>
    obtain ⟨hnext, hmodest⟩ := hstep
    obtain ⟨around, haround, hcarries⟩ := ih hmodest
    intro hmodest₀
    cases hnext with
    | @past depth scopes scope scope' s s' index symbol rest hsymbol =>
      refine ⟨around, haround, ?_⟩
      intro nested bars last s'' haccounts hrun
      rw [Scope.outcome_playFrom_cons, andThen_eq_ok] at hrun
      obtain ⟨scope₁, s₁, hsymbol', hrest⟩ := hrun
      cases hsymbol.symm.trans hsymbol'
      have haccounts' :=
        (haccounts.atIndex index).playSymbol (playerOf_accountsFor hr depth) hr hsymbol
      have hbears := hcarries _ _ last s'' haccounts' hrest
      have hcount : scope'.progress.barCount = scope.progress.barCount +
          ((scope.atIndex index).symbolClosings stage (playerOf stage depth) (ledgerOf stage depth)
            s symbol).length := by
        rw [haccounts'.count, List.length_append, haccounts.count]
      rw [hcount] at hbears
      dsimp only
      rw [Scope.closingsFrom, hsymbol]
      exact hbears.prepend
    | @phrase depth scopes scope s index rest times content =>
      refine ⟨around ++ [scope.atIndex index], by simp [haround], ?_⟩
      intro nested bars last s'' _ hrun
      rw [Scope.outcome_playFrom_cons, andThen_eq_ok] at hrun
      obtain ⟨scope₁, s₁, hsymbol, hrest⟩ := hrun
      refine .followed hsymbol ?_ hrest
      rw [Scope.outcome_phrase] at hsymbol
      obtain ⟨⟨r, s₂⟩, hplay, htake⟩ := Option.map_eq_some_iff.mp hsymbol
      exact hcarries.repeated (scope.atIndex index) hclose (hopen _ (by simp [haround])) hplay
        (congrArg Prod.fst htake)
    | @theme depth scopes scope s index rest name content hc ha =>
      refine ⟨around ++ [scope.atIndex index], by simp [haround], ?_⟩
      intro nested bars last s'' _ hrun
      rw [Scope.outcome_playFrom_cons, andThen_eq_ok] at hrun
      obtain ⟨scope₁, s₁, hsymbol, hrest⟩ := hrun
      refine .followed hsymbol ?_ hrest
      rw [Scope.outcome_theme _ _ _ hc ha] at hsymbol
      obtain ⟨⟨r, s₂⟩, hplay, htake⟩ := Option.map_eq_some_iff.mp hsymbol
      simp only [Scope.symbolClosings, hc, if_neg ha]
      exact hcarries.repeated (scope.atIndex index) hclose (hopen _ (by simp [haround])) hplay
        (congrArg Prod.fst htake)
    | @call depth scopes scope s index rest name arguments function values hf hv =>
      refine ⟨around, haround, ?_⟩
      intro nested bars last s'' _ hrun
      rw [Scope.outcome_playFrom_cons, andThen_eq_ok] at hrun
      obtain ⟨scope₁, s₁, hsymbol, hrest⟩ := hrun
      refine .followed hsymbol ?_ hrest
      rw [Scope.outcome_call _ _ _ _ hf hv] at hsymbol
      obtain ⟨⟨⟨r, scope₂⟩, s₂⟩, hanswer, hreceive⟩ := Option.map_eq_some_iff.mp hsymbol
      have hreceived : (scope₂.receive stage s₂ name r).1 = .ok scope₁ := congrArg Prod.fst hreceive
      obtain ⟨passage, rfl, hbears⟩ := hcarries [] r scope₂ s₂ hanswer fun fault he ↦ by
        subst he
        exact Scope.not_fatal_of_receive hreceived
      cases hreceived
      simp only [Scope.symbolClosings, hf, hv, Scope.callClosings, hanswer]
      exact hbears
    | @play depth scopes scope s name access phrase overrides inner next =>
      refine ⟨around ++ [scope], by simp [haround], ?_⟩
      intro held r last s' hrun hfatal
      obtain ⟨phrases, hm⟩ := hmodest₀
      cases hm with
      | play hp hnext =>
        rw [Scope.answer_play, Option.bind_eq_some_iff] at hrun
        obtain ⟨⟨u, s₁⟩, hplay, hrest⟩ := hrun
        dsimp only at hrest
        rw [hnext] at hrest
        have hplayed := hplay
        rw [Scope.playPhrase_full_run] at hplayed
        cases u with
        | error fault =>
          cases hrest
          exact absurd (playerOf_endsFatally stage _ _ _ _ _ _ _ hplayed)
            (ne_true_of_eq_false (hfatal fault rfl))
        | ok passage =>
          cases hrest
          refine ⟨passage, rfl, ?_⟩
          have hclosings : scope.answerClosings stage (playerOf stage (depth + 1))
              (ledgerOf stage (depth + 1)) name access (.play phrase overrides .full next) held s =
              ledgerOf stage (depth + 1) (scope.settings.override overrides) phrase.written.2
              phrase.written.1 s := by
            rw [Scope.answerClosings, hplay]
            dsimp only
            rw [hnext]
            change (List.lookup passage ((passage, _) :: held)).getD [] = _
            rw [List.lookup_cons_self]
            rfl
          dsimp only
          rw [hclosings]
          exact hcarries.enter hclose (hopen _ (by simp [haround]))
            (barLengths_repetition fun _ ↦ Phrase.finding_of_mem_written) hplayed
    | @played depth scopes scope s s' name access phrase overrides inner r next hplay =>
      refine ⟨around, haround, ?_⟩
      intro held r' last s'' hrun hfatal
      rw [Scope.answer_play, hplay] at hrun
      dsimp only
      rw [Scope.answerClosings, hplay]
      exact hcarries _ r' last s'' hrun hfatal
    | @settings depth scopes scope s name access next =>
      exact ⟨around, haround, fun held r last s' hrun ↦ hcarries held r last s' hrun⟩
    | @set depth scopes scope s name access settings next =>
      refine ⟨around, haround, fun held r last s' hrun ↦ ?_⟩
      rw [Scope.answer_setSettings] at hrun
      exact hcarries held r last s' hrun
    | joined | remarked | trace | record | progress =>
      obtain ⟨phrases, hm⟩ := hmodest₀
      cases hm

/-- What is to be remarked on the bar that closes at the moment, by the settings in force there. -/
def due? (m : Moment) : Option (Float × Float × Float) :=
  if (m.scope.progress.beatsOpen - m.scope.settings.bar).abs < barTolerance then none
  else some (m.scope.settings.bar, m.scope.progress.beatsOpen, m.time m.around)

theorem Gives.report?_eq {c : Closing} (h : m.Gives line around c) (hcloses : m.Closes line)
    (hline : line.terminal = false) : c.report? =
      if (m.scope.progress.beatsOpen - (m.scope.checker around).settings.bar).abs <
        barTolerance then none
      else some ((m.scope.checker around).settings.bar, m.scope.progress.beatsOpen,
        m.time around) := by
  rw [Closing.report?, Closing.isFull, h.line, hline, h.bar, h.beats, h.time, hcloses.2]
  simp

end Moment

namespace Metered

def note : Symbol := .note { pitches := [{ degree := .scale 1 }] }

def lead : List Symbol := [.call "Bar" [.number 3], note, note, note]

def rest : List Symbol := [note, note, note, .barLine {}]

def content : List Symbol := [.phrase (-1) (lead ++ .barLine {} :: rest)]

end Metered

section Perform

variable {r : Repertoire} {settings : Settings} {instrument : Instrument} {id : String}
  {name : Option String} {content : List Symbol} {performance : Performance}

/-- A bar that closes where no passage around has beats open is among the bars of the track, with
its beats and its time. The first bar of a passage is checked by the settings of a passage around;
it is remarked on as by those in force at its bar line if and only if both want bars of the same
length, or both find the bar full. All other bars are. -/
theorem perform_checks_bars_iff (hr : r.Honest)
    (h : perform r settings instrument id name content = some (.ok performance)) :
    ∃ p, performance = r.plugins.complete p ∧
      barLengths p.remarks =
        (((r.closings settings instrument name content).filterMap Closing.report?).reverse.eraseP
          (Performance.endsShort p.progress.duration)).reverse ∧
      ∀ m line, Moment.Carried (r.stage instrument) (r.opening settings instrument name content) m →
      m.Closes line →
        line.terminal = false → (∀ outer ∈ m.around, outer.progress.beatsOpen == 0) →
        ∃ before c after, r.closings settings instrument name content = before ++ c :: after ∧
          m.Gives line m.around c ∧ (m.scope.progress.barCount ≠ 0 → c.report? = m.due?) ∧
          (c.report? = m.due? ↔ (m.scope.checker m.around).settings.bar = m.scope.settings.bar ∨
            (m.scope.progress.beatsOpen - m.scope.settings.bar).abs < barTolerance ∧
            (m.scope.progress.beatsOpen - (m.scope.checker m.around).settings.bar).abs <
              barTolerance) := by
  have hhonest : (r.stage instrument).repertoire.Honest := hr
  obtain ⟨p, scope, s', hp, hrun, -, -, hremarks⟩ := perform_accountsFor hr h
  refine ⟨p, hp, hremarks, ?_⟩
  intro m line hcarried hcloses hline hopen
  obtain ⟨around, haround, hcarries⟩ :=
    Moment.carries_of_carried hhonest hcloses hopen hcarried trivial
  obtain rfl : m.around = around := haround.trans (List.append_nil around)
  have hbears :=
    hcarries _ _ scope s' (Scope.accountsFor_enter (r.stage instrument) (.opening name)
      settings false) hrun
  obtain ⟨before, c, after, hbars, hgives, -, -⟩ := hbears.bar
  have hreport := hgives.report?_eq hcloses hline
  refine ⟨before, c, after, hbars, hgives, ?_, ?_⟩
  · intro hcount
    have hchecker : m.scope.checker m.around = m.scope := by
      cases hlist : m.around with
      | nil => rfl
      | cons outer rest => exact if_neg hcount
    rw [hreport, hchecker]
    rfl
  · rw [hreport, Moment.due?]
    by_cases hbar : (m.scope.checker m.around).settings.bar = m.scope.settings.bar
    · rw [hbar]
      exact iff_of_true rfl (.inl rfl)
    · by_cases hown : (m.scope.progress.beatsOpen - m.scope.settings.bar).abs < barTolerance <;>
        by_cases hchecker : (m.scope.progress.beatsOpen -
          (m.scope.checker m.around).settings.bar).abs < barTolerance <;>
        simp [hbar, hown, hchecker]

theorem perform_checks_bars_iff_metered : ∃ p m c,
    perform .standard {} {} "" none Metered.content = some (.ok p) ∧
    barLengths p.remarks = [(4, 3, 3)] ∧
    Moment.Carried (Repertoire.standard.stage {})
      (Repertoire.standard.opening {} {} none Metered.content) m ∧
    m.Closes {} ∧ c ∈ Repertoire.standard.closings {} {} none Metered.content ∧
    m.Gives {} m.around c ∧
    m.scope.settings.bar = 3 ∧ m.due? = none ∧ c.report? ≠ m.due? := by
  obtain ⟨p, hp, hbars⟩ := exists_performance (f := fun p ↦ barLengths p.remarks) (b := [(4, 3, 3)])
    (x := perform .standard {} {} "" none Metered.content) (by decide +kernel)
  have hdepth : (Repertoire.standard.opening {} {} none Metered.content).depth = 10001 + 1 := by
    decide +kernel
  have hlead : (outcome ((Scope.begin (Repertoire.standard.stage {}) (.opening none) {} []).playFrom
      (Repertoire.standard.stage {}) (playerOf (Repertoire.standard.stage {}) 10001) 0 Metered.lead)
      (.opening none)).map
        (fun x ↦ x.1.map fun scope ↦ (scope.settings.bar, scope.progress.beatsOpen,
          scope.progress.barCount)) = some (.ok (3, 3, 0)) := by
    decide +kernel
  obtain ⟨⟨fault | scope, s⟩, hplayed, hscope⟩ := Option.map_eq_some_iff.mp hlead
  · cases hscope
  · simp only [Except.map, Except.ok.injEq, Prod.mk.injEq] at hscope
    obtain ⟨hbar, hbeats, hcount⟩ := hscope
    let track : Scope :=
      (Scope.enter (Repertoire.standard.stage {}) {} (.opening none) false).atIndex 0
    let m : Moment := ⟨10001, [track], scope, s, .symbols 4 (.barLine {} :: Metered.rest)⟩
    have hopening : Repertoire.standard.opening {} {} none Metered.content =
        ⟨10001 + 1, [], .enter (Repertoire.standard.stage {}) {} (.opening none) false,
          .opening none, .symbols 0 Metered.content⟩ := by
      rw [← hdepth]
      rfl
    have hcarried : Moment.Carried (Repertoire.standard.stage {})
        (Repertoire.standard.opening {} {} none Metered.content)
        m := by
      rw [hopening]
      refine .head ⟨.phrase (-1) _, trivial⟩ ?_
      exact Moment.past_symbols (Repertoire.standard.stage {}) (fun _ _ _ _ _ _ _ h ↦
        ⟨.past h, trivial⟩) _ hplayed
    have hcloses : m.Closes {} := ⟨⟨4, Metered.rest, rfl⟩, by rw [hbeats]; decide +kernel⟩
    obtain ⟨_, -, -, hall⟩ := perform_checks_bars_iff Repertoire.onlyStandard_standard.honest hp
    obtain ⟨before, c, after, hclosings, hgives, -, hiff⟩ :=
      hall m {} hcarried hcloses rfl (List.forall_mem_singleton.mpr Scope.zero_beq_zero)
    have hchecker : m.scope.checker m.around = track := if_pos hcount
    have hdue : m.due? = none := by
      rw [Moment.due?, hbar, hbeats]
      exact if_pos (by decide +kernel)
    refine ⟨p, m, c, hp, hbars, hcarried, hcloses, hclosings ▸ by simp, hgives, hbar, hdue, ?_⟩
    rw [Ne, hiff, hchecker, hbar, hbeats]
    decide +kernel

end Perform

end Rendition
