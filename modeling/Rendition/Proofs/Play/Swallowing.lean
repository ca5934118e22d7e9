import Rendition.Proofs.Play.Reckoning

namespace Rendition

open Number

def Symbol.isPlain : Symbol → Bool
  | .note _ | .tie => true
  | .barLine bar => bar = {}
  | _ => false

namespace Scope

variable {scope : Scope} {bars : Bars} {stage : Stage} {player : Player} {account : Account}
  {s : Session}

theorem Reckons.playSymbol (stage : Stage) (h : scope.Reckons bars) {symbol : Symbol}
    (hp : symbol.isPlain) (hsums : Exactly (scope.symbolSums player account s symbol)) :
    ∃ scope' s', outcome (scope.playSymbol stage player symbol) s = some (.ok scope', s') ∧
      scope'.Reckons (bars.add scope.settings symbol) ∧ scope'.settings = scope.settings ∧
      scope'.nested = scope.nested := by
  cases symbol with
  | note note => exact ⟨_, _, rfl, h.note hsums, rfl, rfl⟩
  | tie => exact ⟨_, _, rfl, h, rfl, rfl⟩
  | barLine bar =>
    obtain rfl : bar = {} := of_decide_eq_true hp
    have hrecounts := scope.playBarLine_recounts {}
    exact ⟨_, _, rfl, h.close, hrecounts.settings, hrecounts.nested⟩
  | _ => cases hp

theorem Reckons.playFrom (h : scope.Reckons bars) {index : Nat} {xs : List Symbol}
    (hp : ∀ x ∈ xs, x.isPlain) (ys : List Symbol)
    (hsums : Exactly (scope.sumsFrom stage player account index (xs ++ ys) s)) :
    ∃ scope' s', outcome (scope.playFrom stage player index xs) s = some (.ok scope', s') ∧
      scope'.Reckons (bars.addAll scope.settings xs) ∧ scope'.settings = scope.settings ∧
      scope'.nested = scope.nested ∧
      Exactly (scope'.sumsFrom stage player account (index + xs.length) ys s') := by
  induction xs generalizing scope bars index s with
  | nil => exact ⟨scope, s, rfl, h, rfl, rfl, hsums⟩
  | cons x xs ih =>
    rw [List.cons_append, sumsFrom, exactly_append] at hsums
    obtain ⟨hx, hxs⟩ := List.forall_mem_cons.mp hp
    obtain ⟨scope₁, s₁, hplay, hreckons, hsettings, hnested⟩ :=
      (h.atIndex index).playSymbol stage hx hsums.1
    rw [hplay] at hsums
    obtain ⟨scope', s', hrest, hreckons', hsettings', hnested', hsums'⟩ := ih hreckons hxs hsums.2
    refine ⟨scope', s', ?_, ?_, hsettings'.trans hsettings, hnested'.trans hnested, ?_⟩
    · rw [outcome_playFrom_cons, hplay]
      exact hrest
    · rw [hsettings] at hreckons'
      exact hreckons'
    · rw [List.length_cons, Nat.add_comm xs.length, ← Nat.add_assoc]
      exact hsums'

theorem reckons_begin (stage : Stage) (s : Session) (settings : Settings) :
    (begin stage s settings []).Reckons {} :=
  ⟨rfl, reads_zero, reads_zero, rfl, fun _ ↦ ⟨fun _ h ↦ (nomatch h), fun _ h ↦ (nomatch h)⟩, rfl⟩

theorem reckons_enter (stage : Stage) (s : Session) (settings : Settings) :
    (enter stage settings s false).Reckons {} :=
  ⟨rfl, reads_zero, reads_zero, rfl, fun h ↦ (nomatch h), rfl⟩

theorem unfold_plain {content : List Symbol} (hp : ∀ x ∈ content, x.isPlain) {bar : BarLine}
    (hend : content.getLast? = some (.barLine bar)) :
    Repetition.unfold content (-1) = (content, []) := by
  have hflags : ∀ bar, .barLine bar ∈ content → bar.skip = false ∧ bar.order = none := by
    intro bar hmem
    obtain rfl : bar = {} := of_decide_eq_true (hp _ hmem)
    exact ⟨rfl, rfl⟩
  rw [Repetition.unfold_once hflags, Repetition.body, if_neg]
  rintro ⟨-, hlast⟩
  rw [hend] at hlast
  cases hlast

theorem Reckons.playPhrase (h : scope.Reckons bars) (hnested : scope.nested = false)
    {content : List Symbol} (hp : ∀ x ∈ content, x.isPlain) {bar : BarLine}
    (hend : content.getLast? = some (.barLine bar)) {depth : Nat}
    (hsums : Exactly (scope.symbolSums (playerOf stage (depth + 1)) (accountOf stage (depth + 1)) s
      (.phrase (-1) content))) :
    ∃ scope' s', outcome (scope.playSymbol stage (playerOf stage (depth + 1))
      (.phrase (-1) content)) s = some (.ok scope', s') ∧
      scope'.Reckons (bars.join (.addAll scope.settings {} content)) ∧
      scope'.settings = scope.settings ∧
      scope'.nested = scope.nested := by
  have hunfold : Repetition.unfold content (-1 : Int32).toInt = (content, []) :=
    unfold_plain hp hend
  unfold symbolSums at hsums
  simp only [hunfold] at hsums
  rw [exactly_append] at hsums
  obtain ⟨hinner, hjoin⟩ := hsums
  obtain ⟨inner, s', hrun, hreckons, hsettings, hin, -⟩ :=
    (reckons_begin stage s scope.settings).playFrom hp [] ((List.append_nil content).symm ▸ hinner)
  have hplay : outcome (playerOf stage (depth + 1) scope.settings [] content) s =
      some (.ok (inner.conclude s'), s') := by
    rw [outcome_playerOf, hrun]
    rfl
  rw [hplay] at hjoin
  have htells : (inner.conclude s').Tells scope.settings (.addAll scope.settings {} content) := by
    have htells := hreckons.conclude (hin.trans rfl) s'
    rwa [hsettings] at htells
  refine ⟨scope.absorb stage (inner.conclude s'), (scope.add stage (inner.conclude s') s').2, ?_,
    h.absorb hnested htells hjoin, absorb_settings .., ?_⟩
  · rw [outcome_phrase, playRepeated, hunfold]
    change (outcome (playerOf stage (depth + 1) scope.settings [] content) s).map _ = _
    rw [hplay]
    rfl
  · exact (scope.joinBars_recounts _).nested

/-- Two outermost scopes that reckon the same bars under the same settings have counted
and remarked the same. -/
theorem Reckons.eq {a b : Scope} (ha : a.Reckons bars) (hb : b.Reckons bars)
    (han : a.nested = false) (hbn : b.nested = false) (hsettings : a.settings = b.settings) :
    a.progress.barCount = b.progress.barCount ∧ a.progress.beatsOpen = b.progress.beatsOpen ∧
      a.progress.duration = b.progress.duration ∧ barLengths a.remarks = barLengths b.remarks := by
  have haremarks := ha.remarks
  have hbremarks := hb.remarks
  rw [han] at haremarks
  rw [hbn, ← hsettings] at hbremarks
  exact ⟨ha.count.trans hb.count.symm, ha.beats.eq hb.beats, ha.time.eq hb.time,
    haremarks.trans hbremarks.symm⟩

end Scope

namespace Performance

def endsShort (duration : Float) (bar : Float × Float × Float) : Bool :=
  (bar.2.2 - duration).abs < barTolerance && bar.2.1 < bar.1

theorem barLengths_dropFinalShort (duration : Float) (remarks : List Remark) :
    barLengths (dropFinalShort duration remarks) =
      ((barLengths remarks).reverse.eraseP (endsShort duration)).reverse := by
  unfold dropFinalShort barLengths
  rw [List.filterMap_reverse, ← List.filterMap_reverse (l := remarks), List.eraseP_filterMap]
  refine congrArg (fun p ↦ (List.filterMap _ (remarks.reverse.eraseP p)).reverse) (funext ?_)
  intro r
  obtain ⟨finding, path⟩ := r
  cases finding <;> rfl

theorem barLengths_finalRemarks (settings : Settings) (duration : Float) (instrument : String) :
    barLengths (finalRemarks settings duration instrument) = [] := by
  refine List.filterMap_eq_nil_iff.mpr ?_
  intro r hr
  obtain hr | hr := List.mem_append.mp hr
  · obtain ⟨fade, -, rfl⟩ := List.mem_map.mp hr
    rfl
  · split at hr
    · cases hr
    · obtain rfl := List.mem_singleton.mp hr
      rfl

end Performance

section Perform

variable {r : Repertoire} {settings : Settings} {instrument : Instrument} {name : Option String}
  {content pre post symbols : List Symbol} {bar : BarLine}

theorem Scope.Reckons.perform {scope : Scope} {bars : Bars} {s : Session} (h : scope.Reckons bars)
    (hrun : outcome ((Scope.enter (r.stage instrument) settings (.opening name) false).playFrom
      (r.stage instrument)
      (playerOf (r.stage instrument) (r.depthOf (instrument.opening ++ symbols))) 0
      (instrument.opening ++ symbols)) (.opening name) = some (.ok scope, s)) (id : String) :
    ∃ p, Rendition.perform r settings instrument id name symbols =
      some (.ok (r.plugins.complete p)) ∧
      p.progress.barCount = scope.progress.barCount ∧
      p.progress.beatsOpen = scope.progress.beatsOpen ∧
      barLengths p.remarks =
        ((barLengths scope.remarks).reverse.eraseP
          (Performance.endsShort scope.progress.duration)).reverse := by
  have hplay : outcome (playTrack (r.stage instrument) settings (instrument.opening ++ symbols))
      (.opening name) = some (.ok (scope.settings, scope.conclude s), s) := by
    rw [outcome_playTrack, hrun]
    rfl
  rw [perform_eq, hplay]
  refine ⟨_, rfl, ?_, ?_, ?_⟩
  · rw [Scope.conclude_eq h.voices]
  · rw [Scope.conclude_eq h.voices]
    rfl
  · rw [Scope.conclude_eq h.voices, barLengths_append, Performance.barLengths_finalRemarks,
      List.append_nil, Performance.barLengths_dropFinalShort]

theorem exists_depth (r : Repertoire) (symbols : List Symbol) :
    ∃ depth, r.depthOf symbols = depth + 1 :=
  ⟨r.depthOf symbols - 1, by unfold Repertoire.depthOf functionDepth; omega⟩

theorem reckons_nested (hplain : ∀ symbol ∈ instrument.opening ++ pre ++ content ++ post,
    symbol.isPlain) (hend : content.getLast? = some (.barLine bar))
    (hsums : Exactly (r.sums settings instrument name (pre ++ .phrase (-1) content :: post))) :
    ∃ scope s, outcome ((Scope.enter (r.stage instrument) settings (.opening name) false).playFrom
      (r.stage instrument)
        (playerOf (r.stage instrument)
          (r.depthOf (instrument.opening ++ (pre ++ .phrase (-1) content :: post)))) 0
        (instrument.opening ++ (pre ++ .phrase (-1) content :: post))) (.opening name) =
          some (.ok scope, s) ∧
      scope.Reckons (((Bars.addAll settings {} (instrument.opening ++ pre)).join
        (.addAll settings {} content)).addAll settings post) ∧
      scope.settings = settings ∧ scope.nested = false := by
  simp only [List.forall_mem_append] at hplain
  obtain ⟨⟨⟨hopening, hpre⟩, hcontent⟩, hpost⟩ := hplain
  unfold Repertoire.sums at hsums
  obtain ⟨depth, hdepth⟩ :=
    exists_depth r (instrument.opening ++ (pre ++ .phrase (-1) content :: post))
  simp only [hdepth] at hsums ⊢
  rw [← List.append_assoc] at hsums ⊢
  obtain ⟨scope, s, hrun, hreckons, hsettings, hnested, hsums⟩ :=
    (Scope.reckons_enter (r.stage instrument) (.opening name) settings).playFrom
      (List.forall_mem_append.mpr ⟨hopening, hpre⟩) _ hsums
  rw [Scope.sumsFrom, exactly_append] at hsums
  obtain ⟨scope₁, s₁, hphrase, hreckons₁, hsettings₁, hnested₁⟩ :=
    (hreckons.atIndex (0 + (instrument.opening ++ pre).length)).playPhrase hnested hcontent
      hend hsums.1
  have hpostSums := hsums.2
  rw [hphrase] at hpostSums
  obtain ⟨scope₂, s₂, hrun₂, hreckons₂, hsettings₂, hnested₂, -⟩ :=
    hreckons₁.playFrom hpost [] ((List.append_nil post).symm ▸ hpostSums)
  have hset : scope₁.settings = settings := hsettings₁.trans hsettings
  rw [hset, Scope.atIndex_settings, hsettings] at hreckons₂
  refine ⟨scope₂, s₂, ?_, hreckons₂, hsettings₂.trans hset, hnested₂.trans (hnested₁.trans hnested)⟩
  rw [Scope.outcome_playFrom_append, hrun]
  change outcome (scope.playFrom _ _ _ (.phrase (-1) content :: post)) s = _
  rw [Scope.outcome_playFrom_cons, hphrase]
  exact hrun₂

theorem reckons_flat (hplain : ∀ symbol ∈ instrument.opening ++ symbols, symbol.isPlain)
    (hsums : Exactly (r.sums settings instrument name symbols)) :
    ∃ scope s, outcome ((Scope.enter (r.stage instrument) settings (.opening name) false).playFrom
      (r.stage instrument)
        (playerOf (r.stage instrument) (r.depthOf (instrument.opening ++ symbols))) 0
        (instrument.opening ++ symbols)) (.opening name) = some (.ok scope, s) ∧
      scope.Reckons (.addAll settings {} (instrument.opening ++ symbols)) ∧
      scope.settings = settings ∧ scope.nested = false := by
  unfold Repertoire.sums at hsums
  obtain ⟨scope, s, hrun, hreckons, hsettings, hnested, -⟩ :=
    (Scope.reckons_enter (r.stage instrument) (.opening name) settings).playFrom hplain []
      (by simpa using hsums)
  exact ⟨scope, s, hrun, hreckons, hsettings, hnested⟩

/-- A phrase that ends in a bar line, played once among plain symbols, counts the same bars as its
symbols in its place unless it swallows a bar line; then it counts one bar less. -/
theorem perform_phrase_bars_iff
    (hplain : ∀ symbol ∈ instrument.opening ++ pre ++ content ++ post, symbol.isPlain)
    (hend : content.getLast? = some (.barLine bar))
    (hnested : Exactly (r.sums settings instrument name (pre ++ .phrase (-1) content :: post)))
    (hflat : Exactly (r.sums settings instrument name (pre ++ content ++ post))) (id : String) :
    ∃ p q, perform r settings instrument id name (pre ++ .phrase (-1) content :: post) =
        some (.ok (r.plugins.complete p)) ∧
      perform r settings instrument id name (pre ++ content ++ post) =
        some (.ok (r.plugins.complete q)) ∧
      (p.progress.barCount = q.progress.barCount ∧ p.progress.beatsOpen = q.progress.beatsOpen ∧
        barLengths p.remarks = barLengths q.remarks ↔
          ¬Bars.swallows settings (instrument.opening ++ pre) content post) ∧
      (Bars.swallows settings (instrument.opening ++ pre) content post →
        p.progress.barCount + 1 = q.progress.barCount) := by
  obtain ⟨sign, hsign⟩ := settings.exists_beat_sign
  obtain ⟨a, s, ha, hareckons, hasettings, hanested⟩ := reckons_nested hplain hend hnested
  have hplain' : ∀ symbol ∈ instrument.opening ++ (pre ++ content ++ post), symbol.isPlain := by
    simpa only [List.append_assoc] using hplain
  obtain ⟨b, t, hb, hbreckons, hbsettings, hbnested⟩ := reckons_flat hplain' hflat
  obtain ⟨p, hp, hpcount, hpopen, hpbars⟩ := hareckons.perform ha id
  obtain ⟨q, hq, hqcount, hqopen, hqbars⟩ := hbreckons.perform hb id
  have hagree := Bars.addAll_join_or hsign (instrument.opening ++ pre) post hend
  have hassoc : instrument.opening ++ (pre ++ content ++ post) = instrument.opening ++ pre ++
      content ++ post := by
    simp only [List.append_assoc]
  rw [hassoc] at hbreckons
  refine ⟨p, q, hp, hq, ?_⟩
  cases hswallows : Bars.swallows settings (instrument.opening ++ pre) content post with
  | true =>
    rw [hswallows, if_pos rfl] at hagree
    have hcount : p.progress.barCount + 1 = q.progress.barCount := by
      rw [hpcount, hqcount, hareckons.count, hbreckons.count, hagree]
    exact ⟨⟨fun h ↦ by omega, fun h ↦ absurd rfl h⟩, fun _ ↦ hcount⟩
  | false =>
    rw [hswallows, if_neg Bool.false_ne_true] at hagree
    rw [hagree] at hareckons
    obtain ⟨hcount, hopen, hduration, hbars⟩ :=
      hareckons.eq hbreckons hanested hbnested (hasettings.trans hbsettings.symm)
    refine ⟨⟨fun _ ↦ Bool.false_ne_true, fun _ ↦ ⟨?_, ?_, ?_⟩⟩, fun h ↦ absurd h Bool.false_ne_true⟩
    · rw [hpcount, hqcount, hcount]
    · rw [hpopen, hqopen, hopen]
    · rw [hpbars, hqbars, hduration, hbars]

/-- A note, and then a phrase that begins with a bar line: in its place the bar line
would close the bar. -/
theorem perform_phrase_bars_leading : ∃ p q,
    perform {} {} {} "" none [.note { pitches := [{ degree := .scale 1 }] },
      .phrase (-1) [.barLine {}, .note { pitches := [{ degree := .scale 1 }] }, .barLine {}]] =
        some (.ok p) ∧
    perform {} {} {} "" none [.note { pitches := [{ degree := .scale 1 }] }, .barLine {},
      .note { pitches := [{ degree := .scale 1 }] }, .barLine {}] = some (.ok q) ∧
    p.progress.barCount + 1 = q.progress.barCount := by
  obtain ⟨p, q, hp, hq, -, hswallows⟩ := @perform_phrase_bars_iff {} {} {} none
    [.barLine {}, .note { pitches := [{ degree := .scale 1 }] }, .barLine {}]
    [.note { pitches := [{ degree := .scale 1 }] }] [] {} (by decide) rfl (by decide +kernel)
    (by decide +kernel) ""
  exact ⟨_, _, hp, hq, hswallows (by decide +kernel)⟩

end Perform

end Rendition
