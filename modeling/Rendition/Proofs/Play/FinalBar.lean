import Rendition.Proofs.Number.Laws
import Rendition.Proofs.Play.Enclosing
import Rendition.Proofs.Play.Terminal

namespace Rendition

open Number (IsSteady)

def Symbol.isOverlay : Symbol → Bool
  | .barLine bar => bar.overlay
  | _ => false

/-- No bar line among the symbols begins an overlay voice. -/
abbrev Unlayered (symbols : List Symbol) : Prop := Symbol.Throughout (·.isOverlay = false) symbols

def Visit.closings (v : Visit) : List Closing :=
  match v.symbol with
  | .barLine bar => v.scope.closings bar
  | _ => []

/-- A bar closes where the run comes to `v`, and no note is left. -/
def EndsOn (visits : List Visit) (v : Visit) : Prop :=
  ∃ before after, visits = before ++ v :: after ∧ v.closings ≠ [] ∧ ∀ u ∈ after,
    u.symbol.isNote = false

namespace EndsOn

variable {visits more : List Visit} {u v : Visit}

theorem of_append (h : EndsOn (visits ++ more) v) :
    EndsOn more v ∨ EndsOn visits v ∧ ∀ u ∈ more, u.symbol.isNote = false := by
  obtain ⟨before, after, he, hcloses, hafter⟩ := h
  obtain ⟨between, -, hmore⟩ | ⟨between, hvisits, hrest⟩ := List.append_eq_append_iff.mp he
  · exact .inl ⟨between, after, hmore, hcloses, hafter⟩
  · cases between with
    | nil => exact .inl ⟨[], after, hrest.symm, hcloses, hafter⟩
    | cons first between =>
      obtain ⟨rfl, rfl⟩ := List.cons.inj hrest
      obtain ⟨hbetween, hmore⟩ := List.forall_mem_append.mp hafter
      exact .inr ⟨⟨before, between, hvisits, hcloses, hbetween⟩, hmore⟩

theorem of_singleton (h : EndsOn [u] v) : v = u ∧ u.closings ≠ [] := by
  obtain ⟨before, after, he, hcloses, -⟩ := h
  cases before with
  | nil =>
    obtain ⟨rfl, -⟩ := List.cons.inj he
    exact ⟨rfl, hcloses⟩
  | cons first before => simp at he

theorem of_inside {outer : Scope} (h : EndsOn (visits.map (·.inside outer)) v) :
    ∃ u, EndsOn visits u ∧ v.symbol = u.symbol := by
  obtain ⟨before, after, he, hcloses, hafter⟩ := h
  obtain ⟨before', rest, rfl, -, hrest⟩ := List.map_eq_append_iff.mp he
  obtain ⟨u, after', rfl, rfl, rfl⟩ := List.map_eq_cons_iff.mp hrest
  exact ⟨u, ⟨before', after', rfl, hcloses,
    fun w hw ↦ hafter (w.inside outer) (List.mem_map_of_mem hw)⟩, rfl⟩

end EndsOn

/-- What the counters of a passage without overlay voices tell of the symbols that it has come
to and of its bars. -/
structure Progress.Follows (p : Progress) (visits : List Visit) (bars : List Closing) : Prop where
  count : p.barCount = bars.length
  voices : p.voices = []
  steady : IsSteady p.duration
  first : ∀ c ∈ bars.head?, c.time = p.firstBarTime
  silent : (∀ u ∈ visits, u.symbol.isNote = false) → bars = [] ∧ p.duration = 0 ∧ p.beatsOpen = 0
  /-- The bar that closes after the last note is the last to close, and it closes at the
  end of the passage. -/
  ends : ∀ v, EndsOn visits v →
    p.beatsOpen = 0 ∧ ∃ before last, bars = before ++ [last] ∧ v.symbol = .barLine last.line ∧
    last.time = p.duration

namespace Progress.Follows

variable {stage : Stage} {scope outer : Scope} {p q : Progress} {visits inner : List Visit}
  {bars bars' : List Closing}

theorem keep (h : p.Follows visits bars) (hcount : q.barCount = p.barCount)
    (hvoices : q.voices = p.voices) (hduration : q.duration = p.duration)
    (hfirst : q.firstBarTime = p.firstBarTime) (hopen : q.beatsOpen = p.beatsOpen) :
    q.Follows visits bars := by
  refine ⟨hcount.trans h.count, hvoices.trans h.voices, hduration ▸ h.steady,
    hfirst ▸ h.first, ?_, ?_⟩
  · rw [hduration, hopen]
    exact h.silent
  · rw [hduration, hopen]
    exact h.ends

theorem start : Follows {} [] [] := by
  refine ⟨rfl, rfl, Number.isSteady_zero, nofun, fun _ ↦ ⟨rfl, rfl, rfl⟩, ?_⟩
  rintro v ⟨before, after, he, -, -⟩
  simp at he

theorem pass (h : p.Follows visits bars) {u : Visit} (hu : u.closings = []) :
    p.Follows (visits ++ [u]) bars := by
  refine ⟨h.count, h.voices, h.steady, h.first, ?_, ?_⟩
  · exact fun hsilent ↦ h.silent (List.forall_mem_append.mp hsilent).1
  · intro v hv
    obtain hv | ⟨hv, -⟩ := hv.of_append
    · exact absurd hu hv.of_singleton.2
    · exact h.ends v hv

theorem note (h : scope.progress.Follows visits bars) (note : Note) (s : Session) :
    (scope.noted stage s note).1.progress.Follows (visits ++ [⟨[], scope, .note note⟩]) bars := by
  have hduration : (scope.noted stage s note).1.progress.duration =
      scope.progress.duration + (note.timing scope.settings).nominal := Scope.duration_lengthen ..
  have hfirst : (scope.noted stage s note).1.progress.firstBarTime = scope.progress.firstBarTime :=
    Scope.firstBarTime_lengthen ..
  refine ⟨(Scope.barCount_lengthen ..).trans h.count, (Scope.voices_lengthen ..).trans h.voices,
    hduration ▸ h.steady.add _, hfirst ▸ h.first, ?_, ?_⟩
  · intro hsilent
    obtain ⟨-, hnote⟩ := List.forall_mem_append.mp hsilent
    exact absurd (hnote _ List.mem_cons_self) Bool.noConfusion
  · intro v hv
    obtain hv | ⟨-, hnote⟩ := hv.of_append
    · exact absurd rfl hv.of_singleton.2
    · exact absurd (hnote _ List.mem_cons_self) Bool.noConfusion

theorem closed (h : scope.progress.Follows visits bars)
    (hopen : (scope.progress.beatsOpen == 0) = false) {u : Visit} {c : Closing}
    (hsymbol : u.symbol = .barLine c.line) (htime : c.time = scope.progress.duration) :
    scope.progress.closed.Follows (visits ++ [u]) (bars ++ [c]) := by
  have hne : scope.progress.beatsOpen ≠ 0 := by
    intro hzero
    rw [hzero, Scope.zero_beq_zero] at hopen
    cases hopen
  refine ⟨?_, h.voices, h.steady, ?_, ?_, ?_⟩
  · rw [List.length_append, ← h.count]
    rfl
  · intro first hfirst
    change first.time = if scope.progress.barCount == 0 then scope.progress.duration
      else scope.progress.firstBarTime
    rw [h.count]
    cases bars with
    | nil =>
      obtain rfl := Option.some.inj hfirst
      exact htime
    | cons bar bars => exact h.first first hfirst
  · intro hsilent
    exact absurd (h.silent (List.forall_mem_append.mp hsilent).1).2.2 hne
  · intro v hv
    obtain hv | ⟨hv, -⟩ := hv.of_append
    · obtain ⟨rfl, -⟩ := hv.of_singleton
      exact ⟨if_neg (Nat.succ_ne_zero _), bars, c, rfl, hsymbol, htime⟩
    · exact absurd (h.ends v hv).1 hne

theorem barLine (h : scope.progress.Follows visits bars) {bar : BarLine}
    (hbar : bar.overlay = false) :
    (scope.playBarLine bar).progress.Follows (visits ++ [⟨[], scope, .barLine bar⟩])
      (bars ++ scope.closings bar) := by
  have hplay : scope.playBarLine bar = scope.endBar bar.terminal := by
    unfold Scope.playBarLine
    dsimp only
    rw [hbar]
    rfl
  rw [hplay, Scope.endBar_eq]
  cases hopen : scope.progress.beatsOpen == 0 with
  | true =>
    have hclosings : scope.closings bar = [] := by rw [Scope.closings, hopen, if_pos rfl]
    rw [if_pos rfl, hclosings, List.append_nil]
    exact h.pass hclosings
  | false =>
    rw [if_neg Bool.false_ne_true, Scope.closings, hopen, if_neg Bool.false_ne_true]
    exact h.closed hopen rfl rfl

theorem silent_of_inside (h : ∀ u ∈ inner.map (·.inside outer), u.symbol.isNote = false) :
    ∀ u ∈ inner, u.symbol.isNote = false :=
  fun u hu ↦ h (u.inside outer) (List.mem_map_of_mem hu)

theorem exists_last_adopt (h : q.Follows inner bars') (outer : Scope) {before : List Closing}
    {last : Closing} (hbars : bars' = before ++ [last]) (htime : last.time = q.duration) :
    ∃ before' last', outer.adopt q bars' = before' ++ [last'] ∧ last'.line = last.line ∧
      last'.time = outer.progress.duration + q.duration := by
  subst hbars
  cases before with
  | nil =>
    refine ⟨[], _, rfl, rfl, ?_⟩
    change outer.progress.duration + q.firstBarTime = _
    rw [← h.first last rfl, htime]
  | cons first before =>
    refine ⟨outer.adopt q (first :: before), last.later outer.progress.duration, ?_, rfl, ?_⟩
    · rw [List.cons_append, Scope.adopt, Scope.adopt, List.map_append]
      rfl
    · change last.time + outer.progress.duration = _
      rw [htime, Number.add_comm]

theorem absorb_unbarred (h : outer.progress.Follows visits bars) {passage : Passage}
    (hq : passage.progress.Follows inner []) :
    (outer.absorb stage passage).progress.Follows (visits ++ inner.map (·.inside outer)) bars := by
  have hzero : passage.progress.barCount = 0 := hq.count
  have hduration := outer.duration_absorb stage passage
  have hopen := outer.beatsOpen_absorb stage passage
  rw [if_pos hzero] at hopen
  refine ⟨?_, (outer.voices_absorb stage passage).trans h.voices,
    hduration ▸ h.steady.add _, ?_, ?_, ?_⟩
  · rw [Scope.barCount_absorb, hzero]
    exact h.count
  · rw [Scope.firstBarTime_absorb, if_neg fun hboth ↦ hboth.2 hzero]
    exact h.first
  · intro hsilent
    obtain ⟨hvisits, hinner⟩ := List.forall_mem_append.mp hsilent
    obtain ⟨hnil, hduration₀, hopen₀⟩ := h.silent hvisits
    obtain ⟨-, hduration₁, hopen₁⟩ := hq.silent (silent_of_inside hinner)
    rw [hduration, hopen, hduration₀, hduration₁, hopen₀, hopen₁]
    exact ⟨hnil, Number.isSteady_zero, Number.isSteady_zero⟩
  · intro v hv
    obtain hv | ⟨hv, hinner⟩ := hv.of_append
    · obtain ⟨u, hu, -⟩ := hv.of_inside
      obtain ⟨-, before, last, hbars, -⟩ := hq.ends u hu
      simp at hbars
    · -- The bar that has closed last stays the last, as nothing sounds after it.
      obtain ⟨-, hduration₁, hopen₁⟩ := hq.silent (silent_of_inside hinner)
      obtain ⟨hopen₀, before, last, hbars, hsymbol, htime⟩ := h.ends v hv
      rw [hduration, hopen, hduration₁, hopen₀, hopen₁]
      exact ⟨Number.isSteady_zero, before, last, hbars, hsymbol, htime.trans h.steady.symm⟩

theorem absorb_barred (h : outer.progress.Follows visits bars) {passage : Passage} {first : Closing}
    {rest : List Closing} (hq : passage.progress.Follows inner (first :: rest)) :
    (outer.absorb stage passage).progress.Follows (visits ++ inner.map (·.inside outer))
      (bars ++ outer.adopt passage.progress (first :: rest)) := by
  have hne : passage.progress.barCount ≠ 0 := by
    rw [hq.count]
    exact Nat.succ_ne_zero _
  have hduration := outer.duration_absorb stage passage
  have hopen := outer.beatsOpen_absorb stage passage
  rw [if_neg hne] at hopen
  have hsounds : ¬∀ u ∈ inner.map (·.inside outer), u.symbol.isNote = false :=
    fun hinner ↦ List.cons_ne_nil _ _ (hq.silent (silent_of_inside hinner)).1
  refine ⟨?_, (outer.voices_absorb stage passage).trans h.voices,
    hduration ▸ h.steady.add _, ?_, ?_, ?_⟩
  · rw [Scope.barCount_absorb, h.count, hq.count, List.length_append]
    simp [Scope.adopt]
  · intro c hc
    rw [Scope.firstBarTime_absorb, h.count]
    cases bars with
    | nil =>
      obtain rfl := Option.some.inj hc
      rw [if_pos ⟨rfl, hne⟩]
    | cons bar bars =>
      rw [if_neg fun hboth ↦ Nat.succ_ne_zero _ hboth.1]
      exact h.first c hc
  · exact fun hsilent ↦ absurd (List.forall_mem_append.mp hsilent).2 hsounds
  · intro v hv
    obtain hv | ⟨-, hinner⟩ := hv.of_append
    · obtain ⟨u, hu, hsymbol⟩ := hv.of_inside
      obtain ⟨hopen₁, before, last, hbars, hline, htime⟩ := hq.ends u hu
      obtain ⟨before', last', hadopt, hline', htime'⟩ := hq.exists_last_adopt outer hbars htime
      refine ⟨hopen.trans hopen₁, bars ++ before', last', ?_, ?_, htime'.trans hduration.symm⟩
      · rw [hadopt, List.append_assoc]
      · rw [hsymbol, hline, hline']
    · exact absurd hinner hsounds

theorem absorb (h : outer.progress.Follows visits bars) {passage : Passage}
    (hq : passage.progress.Follows inner bars') :
    (outer.absorb stage passage).progress.Follows (visits ++ inner.map (·.inside outer))
      (bars ++ outer.adopt passage.progress bars') := by
  cases bars' with
  | nil =>
    rw [Scope.adopt, List.append_nil]
    exact h.absorb_unbarred hq
  | cons first rest => exact h.absorb_barred hq

end Progress.Follows

/-- The passages of a player follow a tour and a ledger, as long as no overlay voices begin in
them. -/
def Player.Follows (player : Player) (tour : Tour) (ledger : Ledger) : Prop :=
  ∀ settings remarks symbols s passage s', Unlayered symbols →
    outcome (player settings remarks symbols) s = some (.ok passage, s') →
    passage.progress.Follows (tour settings remarks symbols s) (ledger settings remarks symbols s)

section Run

variable {stage : Stage} {player : Player} {tour : Tour} {ledger : Ledger} {scope scope' : Scope}
  {s s' : Session} {visits : List Visit} {bars : List Closing} {index : Nat} {symbol : Symbol}
  {symbols : List Symbol}

theorem Scope.Encloses.follows (hplayer : player.Follows tour ledger)
    (h : scope.progress.Follows visits bars) (hs : symbol.isOverlay = false)
    (hsymbol : scope.Encloses stage player tour ledger (·.isOverlay = false) s symbol scope') :
    scope'.progress.Follows
      (visits ++ ⟨[], scope, symbol⟩ :: scope.symbolVisits stage player tour s symbol)
      (bars ++ scope.symbolClosings stage player ledger s symbol) := by
  have hpass (hsilent : symbol.isSilent) :
      scope.progress.Follows (visits ++ [⟨[], scope, symbol⟩]) bars := by
    refine h.pass ?_
    cases symbol with
    | note | barLine => cases hsilent
    | call | phrase | theme | tie | marking | clef | comment | space => rfl
  rw [List.append_cons]
  cases hsymbol with
  | note note =>
    rw [symbolVisits, symbolClosings, List.append_nil, List.append_nil]
    exact h.note note s
  | barLine bar =>
    rw [symbolVisits, symbolClosings, List.append_nil]
    exact h.barLine hs
  | nothing hsilent hprogress hvisits hclosings =>
    rw [hvisits, hclosings, List.append_nil, List.append_nil, hprogress]
    exact (hpass hsilent).keep rfl rfl rfl rfl rfl
  | passage hsilent houter hcontent hplay hvisits hclosings =>
    rw [hvisits, hclosings]
    rw [← houter] at hpass
    exact (hpass hsilent).absorb (hplayer _ _ _ _ _ _ hcontent hplay)

variable (hr : stage.repertoire.OnlyStandard)
  (hthemes : ∀ name content, stage.repertoire.themes.find? name = some content → Unlayered content)
include hr hthemes

theorem Scope.follows_symbols (hend : player.EndsFatally) (hplayer : player.Follows tour ledger)
    (hs : Unlayered symbols) (h : scope.progress.Follows visits bars)
    (hrun : outcome (scope.playFrom stage player index symbols) s = some (.ok scope', s')) :
    scope'.progress.Follows (visits ++ scope.visitsFrom stage player tour index symbols s)
      (bars ++ scope.closingsFrom stage player ledger index symbols s) := by
  induction symbols generalizing index scope s visits bars with
  | nil =>
    cases hrun
    rw [visitsFrom, closingsFrom, List.append_nil, List.append_nil]
    exact h
  | cons symbol rest ih =>
    obtain ⟨hsymbol, hrest⟩ := Symbol.throughout_cons.mp hs
    rw [outcome_playFrom_cons, andThen_eq_ok] at hrun
    obtain ⟨scope₁, s₁, hplayed, hrun⟩ := hrun
    have hindex : (scope.atIndex index).progress.Follows visits bars := h.keep rfl rfl rfl rfl rfl
    have hencloses : (scope.atIndex index).Encloses stage player tour ledger (·.isOverlay = false) s
        symbol scope₁ :=
      encloses_of_outcome hr hend (P := (·.isOverlay = false)) rfl hthemes hsymbol hplayed
    have hfollows := hencloses.follows hplayer hindex (hsymbol symbol symbol.mem_parts_self)
    rw [visitsFrom, closingsFrom, hplayed, ← List.append_assoc, ← List.append_assoc]
    exact ih hrest hfollows hrun

theorem playerOf_follows (depth : Nat) :
    (playerOf stage depth).Follows (visitsOf stage depth) (ledgerOf stage depth) := by
  induction depth with
  | zero => exact fun _ _ _ _ _ _ _ h ↦ nomatch h
  | succ depth ih =>
    intro settings remarks symbols s passage s' hs h
    obtain ⟨_, scope, ⟨⟩, hrun, rfl⟩ := playerOf_ok h
    have hbegin : (Scope.begin stage s settings remarks).progress.Follows [] [] := .start
    have hfollows :=
      Scope.follows_symbols hr hthemes (playerOf_endsFatally stage depth) ih hs hbegin hrun
    rw [Scope.conclude_eq hfollows.voices]
    exact hfollows.keep rfl rfl rfl rfl rfl

end Run

theorem filter_eraseP_not {α : Type} (p : α → Bool) (xs : List α) :
    (xs.eraseP p).filter (!p ·) = xs.filter (!p ·) := by
  obtain he | ⟨a, before, after, -, ha, rfl, he⟩ := List.exists_or_eq_self_of_eraseP p xs
  · rw [he]
  · rw [he]
    simp [ha]

namespace Performance

variable {duration : Float}

theorem filter_eraseP_endsShort (bars : List (Float × Float × Float)) :
    (bars.reverse.eraseP (endsShort duration)).reverse.filter (!endsShort duration ·) =
      bars.filter (!endsShort duration ·) := by
  rw [List.filter_reverse, filter_eraseP_not, List.filter_reverse, List.reverse_reverse]

/-- A short bar that closes at the end of a track is spared, where no other one might be taken for
it. -/
theorem eraseP_endsShort_of_last {before : List Closing} {last : Closing}
    (htime : last.time = duration) (hfinite : duration.isFinite) (hshort : last.beats < last.bar)
    (hbefore : ∀ c ∈ before, ∀ bar ∈ c.report?, endsShort duration bar = false) :
    (((before ++ [last]).filterMap Closing.report?).reverse.eraseP (endsShort duration)).reverse =
      before.filterMap Closing.report? := by
  have hends : endsShort duration (last.bar, last.beats, last.time) := by
    have hclose : (0 : Float).abs < barTolerance := by decide +kernel
    rw [endsShort, htime, Number.sub_self hfinite]
    simp [hshort, hclose]
  have hnone : ∀ bar ∈ (before.filterMap Closing.report?).reverse,
      ¬endsShort duration bar = true := by
    intro bar hbar
    obtain ⟨c, hc, hreport⟩ := List.mem_filterMap.mp (List.mem_reverse.mp hbar)
    simp [hbefore c hc bar hreport]
  rw [List.filterMap_append, Closing.reports_cons, List.filterMap_nil, List.append_nil]
  cases hlast : last.report? with
  | none =>
    rw [Option.toList_none, List.append_nil, List.eraseP_of_forall_not hnone, List.reverse_reverse]
  | some bar =>
    obtain rfl : bar = (last.bar, last.beats, last.time) := by
      unfold Closing.report? at hlast
      split at hlast
      · cases hlast
      · exact (Option.some.inj hlast).symm
    rw [Option.toList_some, List.reverse_append, List.reverse_singleton, List.singleton_append,
      List.eraseP_cons_of_pos hends, List.reverse_reverse]

end Performance

/-- A track without overlay voices may end inside a bar at any depth. The bar that closes after the
last note closes at the end of the track; if it is short, and no other illegal short bar closes
there, it is spared. All other bars of the wrong length are remarked on in their order. -/
theorem perform_spares_final_bar {r : Repertoire} {settings : Settings} {instrument : Instrument}
    {id : String} {name : Option String} {content : List Symbol} {performance : Performance}
    (hr : r.OnlyStandard) (hs : Unlayered (instrument.opening ++ content))
    (hthemes : ∀ name content, r.themes.find? name = some content → Unlayered content)
    (h : perform r settings instrument id name content = some (.ok performance)) :
    ∃ p, performance = r.plugins.complete p ∧
      (barLengths p.remarks).filter (!Performance.endsShort p.progress.duration ·) =
        ((r.closings settings instrument name content).filterMap Closing.report?).filter
          (!Performance.endsShort p.progress.duration ·) ∧
      ∀ v, EndsOn (trackVisits (r.stage instrument) settings (instrument.opening ++ content)
        (.opening name)) v →
        ∃ before last, r.closings settings instrument name content = before ++ [last] ∧
          v.symbol = .barLine last.line ∧ last.time = p.progress.duration ∧
          (p.progress.duration.isFinite → last.beats < last.bar →
            (∀ c ∈ before, ∀ bar ∈ c.report?,
              Performance.endsShort p.progress.duration bar = false) →
            barLengths p.remarks = before.filterMap Closing.report?) := by
  have hstandard : (r.stage instrument).repertoire.OnlyStandard := hr
  obtain ⟨p, scope, s', hp, hrun, hprogress, -, hremarks⟩ := perform_accountsFor hr.honest h
  have hstart : (Scope.enter (r.stage instrument) settings (.opening name) false).progress.Follows
      [] [] := .start
  have hfollows := Scope.follows_symbols hstandard hthemes (playerOf_endsFatally _ _)
    (playerOf_follows hstandard hthemes _) hs hstart hrun
  have hduration : p.progress.duration = scope.progress.duration := by
    rw [hprogress, Scope.conclude_eq hfollows.voices]
  refine ⟨p, hp, ?_, ?_⟩
  · rw [hremarks]
    exact Performance.filter_eraseP_endsShort _
  · intro v hv
    obtain ⟨-, before, last, hbars, hsymbol, htime⟩ := hfollows.ends v hv
    have hclosings : r.closings settings instrument name content = before ++ [last] := hbars
    have htime' : last.time = p.progress.duration := htime.trans hduration.symm
    refine ⟨before, last, hclosings, hsymbol, htime', fun hfinite hshort hbefore ↦ ?_⟩
    rw [hremarks, hclosings]
    exact Performance.eraseP_endsShort_of_last htime' hfinite hshort hbefore

namespace FinalBar

def note : Symbol := .note { pitches := [{ degree := .scale 1 }] }

def theme : List Symbol :=
  [note, .call "Transpose" [.number 2,
    .symbol (.phrase (-1) [note, .barLine {}, .marking "Trill"])], .comment "end"]

def library : Repertoire :=
  { Repertoire.standard with themes := .ofList [("A", theme)] }

def content : List Symbol := [note, .barLine {}, .phrase (-1) [note, .theme "A"], .space]

def visits : List Visit := trackVisits (library.stage {}) {} content (.opening none)

theorem unlayered_theme (name : String) (symbols : List Symbol)
    (h : library.themes.find? name = some symbols) :
    Unlayered symbols := by
  have hfind : library.themes.find? name = if name = "A" then some theme else none := rfl
  rw [hfind] at h
  split at h
  · cases h
    decide
  · cases h

end FinalBar

theorem perform_spares_final_bar_nested : ∃ p,
    perform FinalBar.library {} {} "" none FinalBar.content = some (.ok p) ∧
    barLengths p.remarks = [(4, 1, 1)] := by
  have hstandard : FinalBar.library.OnlyStandard := Repertoire.onlyStandard_standard
  obtain ⟨p, hp, hduration⟩ := exists_performance (f := fun p ↦ p.progress.duration) (b := 4)
    (x := perform FinalBar.library {} {} "" none FinalBar.content) (by decide +kernel)
  have hclosings : FinalBar.library.closings {} {} none FinalBar.content =
      [⟨{}, false, 4, 1, 1⟩] ++ [⟨{}, true, 4, 3, 4⟩] := by
    decide +kernel
  -- The last bar line stands ninth among the symbols that the run comes to, three passages deep.
  have hends : EndsOn FinalBar.visits (FinalBar.visits.get ⟨8, by decide +kernel⟩) := by
    refine ⟨FinalBar.visits.take 8, FinalBar.visits.drop 9, ?_,
      by decide +kernel, by decide +kernel⟩
    exact (List.take_append_drop 8 _).symm.trans (congrArg _ (List.drop_eq_getElem_cons _))
  obtain ⟨_, rfl, -, hlast⟩ :=
    perform_spares_final_bar hstandard (by decide) FinalBar.unlayered_theme hp
  obtain ⟨before, last, hbars, -, -, hspares⟩ := hlast _ hends
  obtain ⟨rfl, hsame⟩ := List.append_inj' (hclosings.symm.trans hbars) rfl
  obtain rfl := List.singleton_inj.mp hsame
  refine ⟨p, hp, (hspares ?_ (by decide +kernel) ?_).trans (by decide +kernel)⟩
  · rw [hduration]
    decide +kernel
  · rw [hduration]
    decide +kernel

end Rendition
