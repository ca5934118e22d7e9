import Rendition.Proofs.Play.Closing
import Rendition.Proofs.Play.Honest

namespace Rendition

/-- A passage counts these bars, and remarks on them but for the first, which it leaves to
the passage around. -/
structure Passage.AccountsFor (passage : Passage) (bars : List Closing) : Prop where
  count : passage.progress.barCount = bars.length
  remarks : barLengths passage.remarks = bars.tail.filterMap Closing.report?
  left : ∀ c ∈ bars.head?, c.left

/-- A scope has counted these bars, and has remarked on them but for the first of an inner
passage. -/
structure Scope.AccountsFor (scope : Scope) (nested : Bool) (bars : List Closing) : Prop where
  flag : scope.nested = nested
  count : scope.progress.barCount = bars.length
  remarks : barLengths scope.remarks =
    (if nested then bars.tail else bars).filterMap Closing.report?
  left : nested → ∀ c ∈ bars.head?, c.left

theorem Closing.report?_later (time : Float) (c : Closing) :
    (c.later time).report? = c.report?.map fun bar ↦ (bar.1, bar.2.1, bar.2.2 + time) := by
  have hfull : (c.later time).isFull = c.isFull := rfl
  unfold report?
  rw [hfull]
  change (if c.line.terminal && !c.left || c.isFull then none else _) = _
  split <;> rfl

theorem Closing.reports_later (time : Float) (bars : List Closing) :
    (bars.map (later time)).filterMap report? =
      (bars.filterMap report?).map fun bar ↦ (bar.1, bar.2.1, bar.2.2 + time) := by
  rw [List.filterMap_map, List.map_filterMap]
  exact List.filterMap_congr fun c _ ↦ c.report?_later time

theorem Closing.reports_cons (c : Closing) (rest : List Closing) :
    (c :: rest).filterMap report? = c.report?.toList ++ rest.filterMap report? := by
  cases h : c.report? <;> simp [h]

theorem Closing.toList_report? (settings : Settings) {c : Closing} (hbar : c.bar = settings.bar)
    (hdue : (c.line.terminal && !c.left) = false) :
    c.report?.toList = shortfall settings c.beats c.time := by
  rw [report?, hdue, Bool.false_or, isFull, hbar, shortfall]
  split <;> rfl

namespace Scope

variable {stage : Stage} {scope : Scope} {nested : Bool} {bars : List Closing}

namespace AccountsFor

theorem append (h : scope.AccountsFor nested bars) {scope' : Scope} {more : List Closing}
    (hnested : scope'.nested = scope.nested)
    (hcount : scope'.progress.barCount = scope.progress.barCount + more.length)
    (hremarks : barLengths scope'.remarks = barLengths scope.remarks ++
      (if scope.progress.barCount == 0 && scope.nested then more.tail
        else more).filterMap Closing.report?)
    (hleft : scope.progress.barCount = 0 → scope.nested → ∀ c ∈ more.head?, c.left) :
    scope'.AccountsFor nested (bars ++ more) := by
  refine ⟨hnested.trans h.flag, by rw [hcount, h.count, List.length_append], ?_, ?_⟩
  · rw [hremarks, h.remarks, h.flag, h.count]
    -- As long as an inner passage has closed no bar, the first of the new ones is the
    -- one it leaves.
    cases nested with
    | false => simp
    | true => cases bars <;> simp
  · intro hn c hc
    cases bars with
    | nil => exact hleft h.count (h.flag.trans hn) c hc
    | cons first rest => exact h.left hn c hc

theorem keep (h : scope.AccountsFor nested bars) {scope' : Scope}
    (hnested : scope'.nested = scope.nested)
    (hcount : scope'.progress.barCount = scope.progress.barCount)
    (hremarks : barLengths scope'.remarks = barLengths scope.remarks) :
    scope'.AccountsFor nested bars :=
  ⟨hnested.trans h.flag, hcount.trans h.count, hremarks.trans h.remarks, h.left⟩

theorem remark (h : scope.AccountsFor nested bars) {finding : Finding}
    (hf : finding.barLength? = none) :
    (scope.remark finding).AccountsFor nested bars := by
  refine h.keep rfl rfl ?_
  have hnone : barLengths [.located finding scope.place] = [] := List.filterMap_cons_none hf
  exact (barLengths_append _ _).trans (by rw [hnone, List.append_nil])

theorem atIndex (h : scope.AccountsFor nested bars) (index : Nat) :
    (scope.atIndex index).AccountsFor nested bars :=
  h.keep rfl rfl rfl

theorem noted (h : scope.AccountsFor nested bars) (s : Session) (note : Note) :
    (scope.noted stage s note).1.AccountsFor nested bars := by
  refine h.keep rfl (barCount_lengthen _ _) ?_
  have hremarks : (scope.noted stage s note).1.remarks =
      scope.remarks ++ (note.play stage scope.settings s scope.progress).1.remarks := rfl
  rw [hremarks, barLengths_append, barLengths_eq_nil fun r ↦ Note.isMetric_of_mem_play,
    List.append_nil]

theorem endBar (h : scope.AccountsFor nested bars) (line : BarLine) :
    (scope.endBar line.terminal).AccountsFor nested (bars ++ scope.closings line) := by
  rw [endBar_eq, closings]
  split
  · rw [List.append_nil]
    exact h
  · refine h.append rfl rfl ?_ ?_
    · rw [barLengths_append]
      refine congrArg (barLengths scope.remarks ++ ·) ?_
      cases scope.progress.barCount == 0 && scope.nested with
      | true => rfl
      | false =>
        rw [Bool.false_or, if_neg Bool.false_ne_true, Closing.reports_cons, List.filterMap_nil,
          List.append_nil]
        split
        next ht => simp [Closing.report?, ht, barLengths]
        next ht =>
          rw [barLengths_barRemarks, Closing.toList_report? scope.settings]
          · rfl
          · simp [ht]
    · intro hfirst hn c hc
      obtain rfl := Option.some.inj hc
      simp [hfirst, hn]

theorem absorb (h : scope.AccountsFor nested bars) {passage : Passage} {inner : List Closing}
    (hp : passage.AccountsFor inner) :
    (scope.absorb stage passage).AccountsFor nested
      (bars ++ scope.adopt passage.progress inner) := by
  have hremarks : barLengths (scope.absorb stage passage).remarks =
      barLengths (scope.joinBars passage.progress).remarks ++
        (barLengths passage.remarks).map fun bar ↦
        (bar.1, bar.2.1, bar.2.2 + scope.progress.duration) := by
    rw [← barLengths_within]
    exact barLengths_append _ _
  have hnested : (scope.absorb stage passage).nested = scope.nested :=
    (scope.joinBars_recounts _).nested
  have hcount : (scope.absorb stage passage).progress.barCount =
      (scope.joinBars passage.progress).progress.barCount :=
    rfl
  rw [hp.remarks, joinBars_eq] at hremarks
  rw [joinBars_eq] at hcount
  cases inner with
  | nil =>
    have hzero : passage.progress.barCount = 0 := hp.count
    rw [if_pos hzero] at hremarks hcount
    rw [adopt, List.append_nil]
    refine h.keep hnested (hcount.trans (barCount_lengthen _ _)) ?_
    rw [hremarks]
    exact List.append_nil _
  | cons first rest =>
    have hne : passage.progress.barCount ≠ 0 := by
      rw [hp.count]
      exact Nat.succ_ne_zero _
    have hleft : first.left := hp.left first rfl
    rw [if_neg hne] at hremarks hcount
    refine h.append hnested ?_ ?_ ?_
    · rw [hcount, Progress.joined, adopt, hp.count]
      simp only [List.length_cons, List.length_map]
      omega
    · rw [hremarks, adopt, List.tail_cons, barLengths_append, List.append_assoc]
      refine congrArg (barLengths scope.remarks ++ ·) ?_
      cases scope.progress.barCount == 0 && scope.nested with
      | true => exact (Closing.reports_later _ _).symm
      | false =>
        rw [if_neg Bool.false_ne_true, if_neg Bool.false_ne_true, Closing.reports_cons,
          Closing.reports_later]
        refine congrArg (· ++ _) ?_
        rw [barLengths_barRemarks, Closing.toList_report? scope.settings]
        · rfl
        · simp [hleft]
    · intro _ _ c hc
      obtain rfl := Option.some.inj hc
      exact hleft

theorem playBarLine (h : scope.AccountsFor nested bars) (line : BarLine) :
    (scope.playBarLine line).AccountsFor nested (bars ++ scope.closings line) := by
  have hend := h.endBar line
  unfold Scope.playBarLine
  dsimp only
  split
  · exact hend.keep rfl (barCount_nextVoice _) rfl
  · exact hend

theorem settleVoices (h : scope.AccountsFor nested bars) :
    scope.settleVoices.AccountsFor nested bars := by
  unfold Scope.settleVoices
  dsimp only
  split
  · exact h
  · have hvoices :
        AccountsFor { scope with progress := { scope.progress.nextVoice with voices := [] } }
          nested bars :=
      h.keep rfl (barCount_nextVoice _) rfl
    split
    · exact (hvoices.remark rfl).keep rfl rfl rfl
    · exact hvoices.keep rfl rfl rfl

theorem conclude (h : scope.AccountsFor true bars) (s : Session) :
    (scope.conclude s).AccountsFor bars :=
  ⟨h.settleVoices.count, h.settleVoices.remarks, h.settleVoices.left rfl⟩

end AccountsFor

theorem accountsFor_begin (stage : Stage) (s : Session) (settings : Settings)
    {remarks : List Remark} (hr : barLengths remarks = []) :
    (begin stage s settings remarks).AccountsFor true [] :=
  ⟨rfl, rfl, hr, fun _ ↦ nofun⟩

theorem accountsFor_enter (stage : Stage) (s : Session) (settings : Settings) (nested : Bool) :
    (enter stage settings s nested).AccountsFor nested [] := by
  refine ⟨rfl, rfl, ?_, fun _ ↦ nofun⟩
  cases nested <;> rfl

section Join

variable {held : Holding} {passages : List Passage}
  (hheld : ∀ p ∈ passages, p.AccountsFor (held.bars p))
include hheld

theorem AccountsFor.addEach (h : scope.AccountsFor nested bars) (index : Nat) (s : Session) :
    (addEach stage index passages scope s).1.AccountsFor nested
      (bars ++ scope.joinedClosings stage held index passages) := by
  induction passages generalizing scope bars index s with
  | nil =>
    rw [joinedClosings, List.append_nil]
    exact h
  | cons passage rest ih =>
    obtain ⟨hpassage, hrest⟩ := List.forall_mem_cons.mp hheld
    rw [joinedClosings, ← List.append_assoc]
    exact ih hrest ((h.atIndex index).absorb hpassage) (index + 1) _

theorem join_accountsFor (scope : Scope) (s : Session) :
    (scope.join stage passages s).1.AccountsFor
      ((enter stage scope.settings s true).joinedClosings stage held 0 passages) := by
  have hjoined : ((addEach stage 0 passages (enter stage scope.settings s true) s).1.conclude
      (addEach stage 0 passages (enter stage scope.settings s true) s).2).AccountsFor _ :=
    ((accountsFor_enter stage s scope.settings true).addEach hheld 0 s).conclude _
  exact ⟨hjoined.count, hjoined.remarks, hjoined.left⟩

end Join

end Scope

def Player.AccountsFor (player : Player) (ledger : Ledger) : Prop :=
  ∀ settings remarks symbols s passage s', barLengths remarks = [] →
    outcome (player settings remarks symbols) s = some (.ok passage, s') →
    passage.AccountsFor (ledger settings remarks symbols s)

theorem barLengths_repetition {remarks : List Remark} (h : ∀ r ∈ remarks,
    r.finding = .unexpectedCoda ∨ r.finding = .multiCoda ∨ ∃ order, r.finding =
    .unexpectedVolta order) :
    barLengths remarks = [] := by
  refine barLengths_eq_nil ?_
  intro r hr
  obtain hf | hf | ⟨order, hf⟩ := h r hr <;> rw [hf] <;> rfl

namespace Holding

variable {held : Holding} {passages : List Passage} {bars : List Closing}

theorem accountsFor_cons (hheld : ∀ p ∈ passages, p.AccountsFor (held.bars p)) {passage : Passage}
    (hp : passage.AccountsFor bars) :
    ∀ p ∈ passage :: passages, p.AccountsFor (Holding.bars ((passage, bars) :: held) p) := by
  intro p hmem
  rw [Holding.bars, List.lookup_cons]
  by_cases he : p = passage
  · subst he
    rw [beq_self_eq_true]
    exact hp
  · rw [beq_false_of_ne he]
    exact hheld p ((List.mem_cons.mp hmem).resolve_left he)

theorem accountsFor_hold (hheld : ∀ p ∈ passages, p.AccountsFor (held.bars p))
    {r : Except Fault Passage} (hr : ∀ passage, r = .ok passage → passage.AccountsFor bars) :
    ∀ p ∈ Script.hold passages r, p.AccountsFor ((held.hold bars r).bars p) := by
  cases r with
  | error fault => exact hheld
  | ok passage => exact accountsFor_cons hheld (hr passage rfl)

end Holding

section Run

variable {stage : Stage} {player : Player} {ledger : Ledger} (hplayer : player.AccountsFor ledger)
include hplayer

namespace Scope

theorem answer_accountsFor {name : String} {access : Access} {passages : List Passage}
    {held : Holding} {script : Script (Option Passage)} (hh : script.Honest passages)
    (hheld : ∀ p ∈ passages, p.AccountsFor (held.bars p)) {scope scope' : Scope} {s s' : Session}
    {r : Except Fault (Option Passage)}
    (h : (answer stage player name access script scope).run s = some ((r, scope'), s')) :
    (∀ (nested : Bool) bars, scope.AccountsFor nested bars → scope'.AccountsFor nested bars) ∧
      ∀ passage, r = .ok (some passage) →
        passage.AccountsFor (answerClosings stage player ledger name access script held
          scope s) := by
  induction hh generalizing held scope s with
  | none | fail =>
    cases h
    exact ⟨fun _ _ hb ↦ hb, nofun⟩
  | some hmem =>
    cases h
    refine ⟨fun _ _ hb ↦ hb, ?_⟩
    intro passage hp
    cases hp
    exact hheld _ hmem
  | @play passages phrase overrides inner next _ ih =>
    rw [answer_play, Option.bind_eq_some_iff] at h
    obtain ⟨⟨u, s₁⟩, hplay, hrest⟩ := h
    rw [answerClosings, hplay]
    refine ih u (Holding.accountsFor_hold hheld ?_) hrest
    intro passage hp
    rw [playPhrase_run] at hplay
    obtain ⟨⟨u, s₂⟩, hrun, he⟩ := Option.map_eq_some_iff.mp hplay
    cases he
    cases hp
    exact hplayer _ _ _ _ _ _ (barLengths_repetition fun _ ↦ Phrase.finding_of_mem_written) hrun
  | @join passages joined next hp _ ih =>
    rw [answer_join] at h
    exact ih _ (Holding.accountsFor_cons hheld
      (join_accountsFor (fun p hmem ↦ hheld p (hp hmem)) scope s)) h
  | remark _ ih =>
    rw [answer_remark] at h
    obtain ⟨hkeeps, hgives⟩ := ih hheld h
    exact ⟨fun nested bars hb ↦ hkeeps nested bars (hb.remark rfl), hgives⟩
  | settings _ ih => exact ih _ hheld h
  | setSettings _ ih =>
    rw [answer_setSettings] at h
    obtain ⟨hkeeps, hgives⟩ := ih hheld h
    exact ⟨fun nested bars hb ↦ hkeeps nested bars (hb.keep rfl rfl rfl), hgives⟩
  | trace _ ih => exact ih _ hheld h
  | record _ ih =>
    rw [answer_record] at h
    exact ih _ hheld h
  | progress _ ih => exact ih _ hheld h

variable {scope scope' : Scope} {nested : Bool} {bars : List Closing} {s s' : Session}

theorem AccountsFor.repeated (hb : scope.AccountsFor nested bars) {content : List Symbol}
    {times : Int} {s₁ t : Session} {r : Except Fault Passage}
    (h : outcome (scope.playRepeated player content times) s = some (r, s₁))
    (htake : (scope.take stage t r).1 = .ok scope') :
    scope'.AccountsFor nested (bars ++ scope.repeatedClosings player ledger content times s) := by
  cases r with
  | error fault => cases htake
  | ok passage =>
    cases htake
    rw [repeatedClosings, h]
    exact hb.absorb (hplayer _ _ _ _ _ _ (barLengths_repetition fun _ ↦
      Repetition.finding_of_mem_unfold) h)

variable (hr : stage.repertoire.Honest)
include hr

theorem AccountsFor.playSymbol (hb : scope.AccountsFor nested bars) {symbol : Symbol}
    (h : outcome (scope.playSymbol stage player symbol) s = some (.ok scope', s')) :
    scope'.AccountsFor nested (bars ++ scope.symbolClosings stage player ledger s symbol) := by
  have hnone (hclosings : scope.symbolClosings stage player ledger s symbol = [])
      (hb' : scope'.AccountsFor nested bars) :
      scope'.AccountsFor nested (bars ++ scope.symbolClosings stage player ledger s symbol) := by
    rw [hclosings, List.append_nil]
    exact hb'
  have hstep := step_of_outcome h
  generalize hres : Except.ok scope' = r at hstep
  cases hstep with
  | note note =>
    cases hres
    exact hnone rfl (hb.noted s note)
  | tie =>
    cases hres
    exact hnone rfl hb
  | marking =>
    cases hres
    exact hnone rfl (hb.keep rfl rfl rfl)
  | inert symbol hs =>
    cases hres
    refine hnone ?_ hb
    cases symbol <;> first | rfl | cases hs
  | barLine bar =>
    cases hres
    exact hb.playBarLine bar
  | phrase times content r s₁ hrun => exact hb.repeated hplayer hrun hres.symm
  | undefined => cases hres
  | active name content hc ha =>
    cases hres
    refine hnone ?_ (hb.remark rfl)
    simp [symbolClosings, hc, ha]
  | theme name content hc ha r s₁ hrun =>
    simp only [symbolClosings, hc, if_neg ha]
    exact hb.repeated hplayer hrun hres.symm
  | unknown name arguments hf =>
    cases hres
    refine hnone ?_ (hb.remark rfl)
    simp [symbolClosings, hf]
  | formula name arguments function source fault hf hv =>
    cases hres
    refine hnone ?_ (hb.remark rfl)
    simp [symbolClosings, hf, hv]
  | call name arguments function values hf hv r scope₁ s₁ hrun =>
    have hheld : ∀ p ∈ ([] : List Passage), p.AccountsFor (Holding.bars [] p) :=
      List.forall_mem_nil _
    obtain ⟨hkeeps, hgives⟩ :=
      answer_accountsFor hplayer (hr name function hf name values) hheld hrun
    simp only [symbolClosings, hf, hv, callClosings, hrun]
    cases r with
    | error fault =>
      cases fault with
      | undefinedTheme => cases hres
      | setting | argument =>
        cases hres
        rw [List.append_nil]
        exact (hkeeps nested bars hb).remark rfl
    | ok handed =>
      cases handed with
      | none =>
        cases hres
        rw [List.append_nil]
        exact hkeeps nested bars hb
      | some passage =>
        cases hres
        -- The function may have changed the settings: its passage is checked under
        -- those that it leaves.
        exact (hkeeps nested bars hb).absorb (hgives passage rfl)

theorem AccountsFor.playFrom (hb : scope.AccountsFor nested bars) {index : Nat}
    {symbols : List Symbol}
    (h : outcome (scope.playFrom stage player index symbols) s = some (.ok scope', s')) :
    scope'.AccountsFor nested (bars ++ scope.closingsFrom stage player ledger index symbols s) := by
  induction symbols generalizing scope bars index s with
  | nil =>
    cases h
    rw [closingsFrom, List.append_nil]
    exact hb
  | cons symbol rest ih =>
    rw [outcome_playFrom_cons, andThen_eq_ok] at h
    obtain ⟨scope₁, s₁, hsymbol, hrest⟩ := h
    have hb₁ := (hb.atIndex index).playSymbol hplayer hr hsymbol
    rw [closingsFrom, hsymbol, ← List.append_assoc]
    exact ih hb₁ hrest

end Scope

end Run

theorem playerOf_accountsFor {stage : Stage} (hr : stage.repertoire.Honest) (depth : Nat) :
    (playerOf stage depth).AccountsFor (ledgerOf stage depth) := by
  induction depth with
  | zero => exact fun _ _ _ _ _ _ _ h ↦ nomatch h
  | succ depth ih =>
    intro settings remarks symbols s passage s' hremarks h
    rw [outcome_playerOf] at h
    obtain ⟨⟨r, s₁⟩, hrun, he⟩ := Option.map_eq_some_iff.mp h
    cases r with
    | error fault => cases he
    | ok scope =>
      cases he
      exact ((Scope.accountsFor_begin stage s settings hremarks).playFrom ih hr hrun).conclude s₁

namespace LeftBar

def content : List Symbol :=
  let note : Symbol := .note { pitches := [{ degree := .scale 1 }] }
  [.phrase (-1) [note, .barLine { terminal := true }, note, note, note, note, .barLine {}]]

end LeftBar

section Perform

variable {r : Repertoire} {settings : Settings} {instrument : Instrument} {id : String}
  {name : Option String} {content : List Symbol} {performance : Performance}

theorem perform_accountsFor (hr : r.Honest)
    (h : perform r settings instrument id name content = some (.ok performance)) :
    ∃ p scope s', performance = r.plugins.complete p ∧
      outcome ((Scope.enter (r.stage instrument) settings (.opening name) false).playFrom
        (r.stage instrument) (playerOf (r.stage instrument)
          (r.depthOf (instrument.opening ++ content))) 0 (instrument.opening ++ content))
        (.opening name) = some (.ok scope, s') ∧
      p.progress = (scope.conclude s').progress ∧
      p.progress.barCount = (r.closings settings instrument name content).length ∧
      barLengths p.remarks =
        (((r.closings settings instrument name content).filterMap Closing.report?).reverse.eraseP
          (Performance.endsShort p.progress.duration)).reverse := by
  have hhonest : (r.stage instrument).repertoire.Honest := hr
  rw [perform_eq] at h
  obtain ⟨⟨answer, s'⟩, hplay, he⟩ := Option.map_eq_some_iff.mp h
  cases answer with
  | error fault => cases he
  | ok played =>
    cases he
    obtain ⟨scope, hrun, hlast, hpassage⟩ := playTrack_ok hplay
    have haccounts :=
      ((Scope.accountsFor_enter (r.stage instrument) (.opening name) settings false).playFrom
        (playerOf_accountsFor hhonest _) hhonest hrun).settleVoices
    refine ⟨_, scope, s', rfl, hrun, congrArg Passage.progress hpassage, ?_, ?_⟩
    · rw [hpassage]
      exact haccounts.count
    · rw [barLengths_append, Performance.barLengths_finalRemarks, List.append_nil,
        Performance.barLengths_dropFinalShort, hpassage]
      exact congrArg (fun bars ↦ (List.eraseP _ (List.reverse bars)).reverse) haccounts.remarks

/-- A track remarks on all bars of the wrong length, but for a short one where it ends. A terminal
bar line spares its bar unless the bar is left to a passage around, which checks it all the same. -/
theorem perform_reports_closings (hr : r.Honest)
    (h : perform r settings instrument id name content = some (.ok performance)) :
    ∃ p, performance = r.plugins.complete p ∧
      p.progress.barCount = (r.closings settings instrument name content).length ∧
      barLengths p.remarks =
        (((r.closings settings instrument name content).filterMap Closing.report?).reverse.eraseP
          (Performance.endsShort p.progress.duration)).reverse ∧
      ∀ c ∈ r.closings settings instrument name content, c.line.terminal →
        (c.report?.isSome ↔ c.left ∧ c.isFull = false) := by
  obtain ⟨p, _, _, hp, -, -, hcount, hremarks⟩ := perform_accountsFor hr h
  refine ⟨p, hp, hcount, hremarks, ?_⟩
  intro c _ hterminal
  cases hleft : c.left <;> cases hfull : c.isFull <;> simp [Closing.report?, hterminal,
    hleft, hfull]

/-- A terminal bar line closes the first bar of a phrase after one beat. The passage around remarks
on the bar all the same. -/
theorem perform_reports_closings_left : ∃ p,
    perform .standard {} {} "" none LeftBar.content = some (.ok p) ∧ p.progress.barCount = 2 ∧
    barLengths p.remarks = [(4, 1, 1)] ∧
    ∃ c ∈ Repertoire.standard.closings {} {} none LeftBar.content, c.line.terminal ∧
    c.report?.isSome := by
  obtain ⟨p, hp, hbars⟩ := exists_performance (f := fun p ↦ barLengths p.remarks) (b := [(4, 1, 1)])
    (x := perform .standard {} {} "" none LeftBar.content) (by decide +kernel)
  have hclosings : Repertoire.standard.closings {} {} none LeftBar.content =
      [⟨{ terminal := true }, true, 4, 1, 1⟩, ⟨{}, false, 4, 4, 5⟩] := by
    decide +kernel
  obtain ⟨p', rfl, hcount, -, hterminal⟩ :=
    perform_reports_closings Repertoire.onlyStandard_standard.honest hp
  rw [hclosings] at hcount hterminal ⊢
  exact ⟨_, hp, hcount, hbars, _, List.mem_cons_self, rfl,
    (hterminal _ List.mem_cons_self rfl).mpr (by decide +kernel)⟩

end Perform

end Rendition
