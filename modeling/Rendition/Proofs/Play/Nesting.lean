import Rendition.Proofs.Play.Ending
import Rendition.Proofs.Play.Placement
import Rendition.Proofs.Play.Simulation

namespace Rendition

namespace Repetition

theorem codas_eq_nil {content : List Symbol} (h : ∀ s ∈ content, s.isCoda = false) :
    codas content = [] := by
  rw [codas, List.map_eq_nil_iff, List.filter_eq_nil_iff]
  intro s hs
  rw [h s.1 (List.fst_mem_of_mem_zipIdx hs)]
  exact Bool.false_ne_true

theorem unfold_once {content : List Symbol}
    (h : ∀ bar, .barLine bar ∈ content → bar.skip = false ∧ bar.order = none) :
    unfold content (-1) = (body content (-1), []) := by
  have hcoda : ∀ s ∈ body content (-1), s.isCoda = false := by
    intro s hs
    obtain hs | rfl := mem_body hs
    · cases s with
      | barLine bar => exact (h bar hs).1
      | _ => rfl
    · rfl
  have hvolta : content.zipIdx.filterMap (fun s ↦
      (unexpectedOrder? s.1).map fun order ↦ amiss (.unexpectedVolta order) s.2) = [] := by
    rw [List.filterMap_eq_nil_iff]
    rintro ⟨s, i⟩ hs
    have hmem := List.fst_mem_of_mem_zipIdx hs
    cases s with
    | barLine bar =>
      obtain ⟨skip, overlay, order, terminal⟩ := bar
      obtain ⟨-, rfl⟩ := h _ hmem
      rfl
    | _ => rfl
  have hcopies : copies 1 (body content (-1)) = body content (-1) := by
    unfold copies
    split
    next hempty => exact (List.isEmpty_iff.mp hempty).symm
    next => simp
  unfold unfold
  rw [if_neg (by omega), withCoda, codas_eq_nil hcoda, hvolta]
  exact congrArg (·, []) hcopies

end Repetition

namespace Scope

variable {stage : Stage} {player : Player} {scope scope' : Scope} {s s' : Session}

theorem outcome_playFrom_append (index : Nat) (xs ys : List Symbol) :
    outcome (scope.playFrom stage player index (xs ++ ys)) s =
      andThen (outcome (scope.playFrom stage player index xs) s) fun scope' s' ↦
        outcome (scope'.playFrom stage player (index + xs.length) ys) s' := by
  induction xs generalizing index scope s with
  | nil => rfl
  | cons x xs ih =>
    rw [List.cons_append, outcome_playFrom_cons, outcome_playFrom_cons]
    rcases outcome ((scope.atIndex index).playSymbol stage player x) s with - | ⟨fault | scope₁, s₁⟩
    · rfl
    · rfl
    · change outcome (scope₁.playFrom stage player (index + 1) (xs ++ ys)) s₁ =
        andThen (outcome (scope₁.playFrom stage player (index + 1) xs) s₁) _
      rw [ih, List.length_cons, Nat.add_assoc, Nat.add_comm 1]

/-- Playing symbols leaves alone where the trace of the passage begins, and its settings unless
it calls functions. -/
def Keeps (symbols : List Symbol) (scope scope' : Scope) : Prop :=
  scope'.traceStart = scope.traceStart ∧ ((∀ name arguments, .call name arguments ∉ symbols) →
    scope'.settings = scope.settings)

theorem keeps_add {symbols : List Symbol} (passage : Passage) (s : Session) :
    Keeps symbols scope (scope.add stage passage s).1 :=
  ⟨(scope.joinBars_recounts passage.progress).traceStart,
    fun _ ↦ scope.absorb_settings stage passage⟩

theorem keeps_take {symbols : List Symbol} {r : Except Fault Passage}
    (h : (scope.take stage s r).1 = .ok scope') :
    Keeps symbols scope scope' := by
  cases r with
  | error fault => cases h
  | ok passage =>
    obtain rfl := Except.ok.inj h
    exact keeps_add passage s

theorem receive_settings {name : String} {r : Except Fault (Option Passage)}
    (h : (scope.receive stage s name r).1 = .ok scope') : scope'.settings = scope.settings := by
  match r, h with
  | .ok none, h | .error (.setting ..), h | .error (.argument ..), h =>
    obtain rfl := Except.ok.inj h
    rfl
  | .ok (some passage), h =>
    obtain rfl := Except.ok.inj h
    exact scope.absorb_settings stage passage

theorem keeps_playSymbol (hr : stage.repertoire.OnlyStandard) {symbol : Symbol}
    (h : outcome (scope.playSymbol stage player symbol) s = some (.ok scope', s')) :
    Keeps [symbol] scope scope' := by
  have hstep := step_of_outcome h
  generalize hres : Except.ok scope' = r at hstep
  cases hstep with
  | note | tie | marking | inert | active | unknown | formula =>
    obtain rfl := Except.ok.inj hres
    exact ⟨rfl, fun _ ↦ rfl⟩
  | barLine bar =>
    obtain rfl := Except.ok.inj hres
    exact ⟨(scope.playBarLine_recounts bar).traceStart,
      fun _ ↦ (scope.playBarLine_recounts bar).settings⟩
  | phrase => exact keeps_take hres.symm
  | undefined => cases hres
  | theme => exact keeps_take hres.symm
  | call name arguments function values hf hv r scope₁ s₁ hrun =>
    obtain ⟨⟨settings, rfl⟩, -⟩ := modestly_of_call hr hf hrun
    refine ⟨?_, fun hno ↦ absurd (List.mem_singleton_self _) (hno name arguments)⟩
    match r, hres with
    | .ok none, hres | .error (.setting ..), hres | .error (.argument ..), hres =>
      obtain rfl := Except.ok.inj hres
      rfl
    | .error (.undefinedTheme ..), hres => cases hres
    | .ok (some passage), hres =>
      obtain rfl := Except.ok.inj hres
      exact (Scope.joinBars_recounts _ passage.progress).traceStart

theorem keeps_playFrom (hr : stage.repertoire.OnlyStandard) {symbols : List Symbol} {index : Nat}
    (h : outcome (scope.playFrom stage player index symbols) s = some (.ok scope', s')) :
    Keeps symbols scope scope' := by
  induction symbols generalizing index scope s with
  | nil =>
    cases h
    exact ⟨rfl, fun _ ↦ rfl⟩
  | cons symbol rest ih =>
    rw [outcome_playFrom_cons, andThen_eq_ok] at h
    obtain ⟨scope₁, s₁, hsymbol, hrest⟩ := h
    obtain ⟨htrace, hsettings⟩ := keeps_playSymbol hr hsymbol
    obtain ⟨htrace', hsettings'⟩ := ih hrest
    refine ⟨htrace'.trans htrace, ?_⟩
    intro hno
    have h₁ : ∀ name arguments, .call name arguments ∉ [symbol] := fun name arguments hmem ↦
      hno name arguments (List.mem_singleton.mp hmem ▸ List.mem_cons_self)
    exact (hsettings' fun name arguments hmem ↦
      hno name arguments (List.mem_cons_of_mem _ hmem)).trans (hsettings h₁)

theorem playFrom_body {content : List Symbol} {r : Except Fault Scope}
    (h : outcome (scope.playFrom stage player 0 (Repetition.body content (-1))) s = some (r, s')) :
    (∃ scope₁ scope₂, r = .ok scope₂ ∧
      outcome (scope.playFrom stage player 0 content) s = some (.ok scope₁, s') ∧
        scope₁.Recounts scope₂) ∨
      ∃ fault, r = .error fault ∧
        outcome (scope.playFrom stage player 0 content) s = some (.error fault, s') := by
  unfold Repetition.body at h
  split at h
  · rw [outcome_playFrom_append, andThen_eq_some] at h
    obtain ⟨fault, hrun, rfl⟩ | ⟨scope₁, s₁, hrun, hbar⟩ := h
    · exact .inr ⟨fault, rfl, hrun⟩
    · cases hbar
      refine .inl ⟨scope₁, _, rfl, hrun, ?_⟩
      have hindex : ∀ i, scope₁.Recounts (scope₁.atIndex i) :=
        fun i ↦ .setProgress (.refl scope₁) rfl
      exact (hindex _).trans (playBarLine_recounts _ {})
  · cases r with
    | ok scope₁ => exact .inl ⟨scope₁, scope₁, rfl, h, .refl scope₁⟩
    | error fault => exact .inr ⟨fault, rfl, h⟩

section Nest

variable {content post : List Symbol} {d e i j : Nat} {a b : Scope} {t t' : Session}
  {r r' : Except Fault Scope}

theorem Continues.inner (h : Continues {} a b) (s : Session) :
    Continues a.soFar (.begin stage s a.settings []) b where
  settings := h.settings
  events := by simpa [begin, enter, soFar] using h.events
  findings := by simpa [begin, enter, soFar, sounding] using h.findings
  after k := by simpa [begin, enter, soFar] using h.after k

theorem Continues.outer {u v : Scope} (h : Continues a.soFar u v)
    (hsettings : v.settings = a.settings) (s₁ s₂ : Session) :
    Continues {} (a.add stage (u.conclude s₁) s₂).1 v := by
  obtain ⟨he, hf, hk⟩ := h.conclude s₁ s₁
  have hv := v.settleVoices_recounts
  refine ⟨hsettings.trans (a.absorb_settings stage _).symm, ?_, ?_, fun k ↦ ?_⟩
  · change v.events = (a.absorb stage _).events
    rw [absorb_events, ← hv.events]
    exact he
  · change sounding v.remarks = sounding (a.absorb stage _).remarks
    rw [sounding_absorb, ← hv.sounding]
    exact hf
  · change k ∈ v.progress.after ↔ _ ∨ k ∈ (a.absorb stage _).progress.after
    rw [mem_after_absorb, ← hv.after]
    exact (hk k).trans (by simp [soFar])

theorem agree_of_nested (hr : stage.repertoire.OnlyStandard) (hp : stage.repertoire.plugins = ∅)
    (hcalls : ∀ name arguments, .call name arguments ∉ content)
    (hbars : ∀ bar, .barLine bar ∈ content → bar.skip = false ∧ bar.order = none)
    (h : Continues {} a b) (hs : s.Alike t)
    (ha : outcome (a.playFrom stage (playerOf stage d) i (.phrase (-1) content :: post)) s =
      some (r, s'))
    (hb : outcome (b.playFrom stage (playerOf stage e) j (content ++ post)) t = some (r', t')) :
    Answers (Continues {}) r r' ∧ s'.Alike t' := by
  have hunfold : Repetition.unfold content (-1 : Int32).toInt =
      (Repetition.body content (-1), []) :=
    Repetition.unfold_once hbars
  have hi : Continues {} (a.atIndex i) b := ⟨h.settings, h.events, h.findings, h.after⟩
  rw [outcome_playFrom_cons, outcome_phrase, playRepeated, hunfold] at ha
  rw [outcome_playFrom_append] at hb
  cases d with
  | zero => cases ha
  | succ d =>
    rw [outcome_playerOf, Option.map_map] at ha
    cases hin : outcome ((begin stage s (a.atIndex i).settings []).playFrom stage
      (playerOf stage d) 0
        (Repetition.body content (-1))) s with
    | none => rw [hin] at ha; cases ha
    | some x =>
      cases hout : outcome (b.playFrom stage (playerOf stage e) j content) t with
      | none => rw [hout] at hb; cases hb
      | some y =>
        obtain ⟨u, s₁⟩ := x
        obtain ⟨v, t₁⟩ := y
        rw [hin] at ha
        rw [hout] at hb
        have hplayers := playerOf_alike hr hp
        -- Inside the phrase and in its place the same symbols are played, so the runs
        -- agree where it ends.
        obtain ⟨u₁, u₂, rfl, hbody, hrecounts⟩ | ⟨fault, rfl, hbody⟩ := playFrom_body hin
        all_goals obtain ⟨hanswers, hs₁⟩ :=
          playFrom_agree hr hp (hplayers d e) (hi.inner s) hs hbody hout
        · cases hanswers with
          | @ok _ v hcontinues =>
            have hsettings : v.settings = (a.atIndex i).settings :=
              ((keeps_playFrom hr hout).2 hcalls).trans h.settings
            have hjoined : Continues {} ((a.atIndex i).add stage (u₂.conclude s₁) s₁).1 v :=
              (hcontinues.recounts hrecounts (.refl v)).outer hsettings s₁ s₁
            exact playFrom_agree hr hp (hplayers (d + 1) e) hjoined (hs₁.later _ _ _) ha hb
        · cases hanswers with
          | error hf =>
            cases ha
            cases hb
            exact ⟨.error hf, hs₁⟩

end Nest

end Scope

namespace Performance

/-- Performances that sound the same: their events differ at most in where they begin, and their
findings at most in those about lengths. -/
structure SoundsLike (p q : Performance) : Prop where
  events : q.events.map Event.unplaced = p.events.map Event.unplaced
  trace : q.progress.trace = p.progress.trace
  tieLeft : q.progress.tieLeft = p.progress.tieLeft
  after : ∀ k, k ∈ q.progress.after ↔ k ∈ p.progress.after
  effects : q.effects = p.effects
  findings : sounding q.remarks = sounding p.remarks

theorem sounding_reverse (remarks : List Remark) :
    sounding remarks.reverse = (sounding remarks).reverse := by
  simp [sounding]

theorem sounding_eraseP {p : Remark → Bool} (hp : ∀ r, p r → r.finding.isMetric)
    (remarks : List Remark) :
    sounding (remarks.eraseP p) = sounding remarks := by
  induction remarks with
  | nil => rfl
  | cons r rest ih =>
    have hcons : ∀ l, sounding (r :: l) = sounding [r] ++ sounding l :=
      fun l ↦ sounding_append [r] l
    rw [List.eraseP_cons]
    cases h : p r with
    | true =>
      rw [hcons, sounding_metric (List.forall_mem_singleton.mpr (hp r h))]
      rfl
    | false => exact (hcons _).trans (ih ▸ (hcons rest).symm)

theorem sounding_dropFinalShort (duration : Float) (remarks : List Remark) :
    sounding (dropFinalShort duration remarks) = sounding remarks := by
  have hmetric : ∀ r, isFinalShort duration r → r.finding.isMetric := by
    intro r h
    unfold isFinalShort at h
    split at h
    next he => rw [he]; rfl
    next => cases h
  rw [dropFinalShort, sounding_reverse, sounding_eraseP hmetric, sounding_reverse,
    List.reverse_reverse]

theorem sounding_finalRemarks (settings : Settings) (duration : Float) (instrument : String) :
    sounding (finalRemarks settings duration instrument) =
      if Palette.contains instrument then [] else [.unknownInstrument instrument] := by
  have hfades : ∀ fades : List Float,
      sounding (fades.map fun fade ↦ { finding := .fadeOverLong fade duration }) = [] := by
    intro fades
    refine sounding_metric ?_
    intro r hr
    obtain ⟨fade, -, rfl⟩ := List.mem_map.mp hr
    rfl
  rw [finalRemarks, sounding_append, hfades]
  split <;> rfl

end Performance

section Perform

variable {r : Repertoire} {settings : Settings} {instrument : Instrument} {name : Option String}
  {content pre post : List Symbol}

theorem perform_eq (id : String) (symbols : List Symbol) :
    perform r settings instrument id name symbols =
    (outcome (playTrack (r.stage instrument) settings (instrument.opening ++ symbols))
      (.opening name)).map
      fun x ↦ x.1.map fun played ↦ r.plugins.complete
        { id
          instrument := instrument.name
          events := x.2.eventsAt played.2.events
          marks := played.2.marks
          remarks := Performance.dropFinalShort played.2.progress.duration played.2.remarks ++
            Performance.finalRemarks played.1 played.2.progress.duration instrument.name
          progress := played.2.progress
          effects := played.1.effects } := rfl

structure SameEnd (x y : Settings × Passage) : Prop where
  settings : y.1 = x.1
  alike : x.2.Alike y.2
  trace : y.2.progress.trace = x.2.progress.trace
  tieLeft : y.2.progress.tieLeft = x.2.progress.tieLeft

theorem conclude_trace (scope : Scope) (s : Session) :
    (scope.conclude s).progress.trace = s.trace.drop scope.traceStart := by
  change s.trace.drop scope.settleVoices.traceStart = _
  rw [scope.settleVoices_recounts.traceStart]

theorem playTrack_agree {stage : Stage} (hr : stage.repertoire.OnlyStandard)
    (hp : stage.repertoire.plugins = ∅)
    (hcalls : ∀ function arguments, .call function arguments ∉ content)
    (hbars : ∀ bar, .barLine bar ∈ content → bar.skip = false ∧ bar.order = none)
    {s s' t' : Session} {u v : Except Fault (Settings × Passage)}
    (hu : outcome (playTrack stage settings (pre ++ .phrase (-1) content :: post)) s = some (u, s'))
    (hv : outcome (playTrack stage settings (pre ++ (content ++ post))) s = some (v, t')) :
    Answers SameEnd u v ∧ s'.Alike t' ∧ ∀ fault, u = .error fault → fault.isFatal := by
  rw [outcome_playTrack] at hu hv
  obtain ⟨⟨a, s₁⟩, ha, hae⟩ := Option.map_eq_some_iff.mp hu
  obtain ⟨⟨b, t₁⟩, hb, hbe⟩ := Option.map_eq_some_iff.mp hv
  cases hae
  cases hbe
  have hagree : Answers (Scope.Continues {}) a b ∧ s₁.Alike t₁ := by
    have hbegin :
        (Scope.enter stage settings s false).Continues {} (.enter stage settings s false) :=
      ⟨rfl, rfl, rfl, fun k ↦ by simp [Scope.enter]⟩
    rw [Scope.outcome_playFrom_append, andThen_eq_some] at ha hb
    obtain ⟨fault, ha, rfl⟩ | ⟨a₁, s₂, ha, ha'⟩ :=
      ha <;> obtain ⟨fault', hb, rfl⟩ | ⟨b₁, t₂, hb, hb'⟩ := hb
    all_goals obtain ⟨hanswers, hs⟩ :=
      Scope.playFrom_agree hr hp (playerOf_alike hr hp _ _) hbegin (.refl s) ha hb
    · exact ⟨by cases hanswers with | error hf => exact .error hf, hs⟩
    · cases hanswers
    · cases hanswers
    · cases hanswers with
      | ok h => exact Scope.agree_of_nested hr hp hcalls hbars h hs ha' hb'
  obtain ⟨hanswers, hs⟩ := hagree
  refine ⟨?_, hs, fun fault he ↦ ?_⟩
  · cases hanswers with
    | error hf => exact .error hf
    | @ok a b h =>
      obtain ⟨he, hf, hk⟩ := h.conclude s₁ t₁
      refine .ok ⟨h.settings, ⟨he, hf, fun k ↦ (hk k).trans (by simp)⟩, ?_, hs.tieLeft.symm⟩
      rw [conclude_trace, conclude_trace, (Scope.keeps_playFrom hr ha).1,
        (Scope.keeps_playFrom hr hb).1, hs.trace]
  · cases a with
    | ok scope => cases he
    | error fault' =>
      obtain rfl := Except.error.inj he
      exact Scope.playFrom_fatal (playerOf_endsFatally stage _) ha

/-- A phrase without calls of its own sounds as if its symbols stood in its place. -/
theorem perform_phrase_soundsLike (hr : r.OnlyStandard) (hp : r.plugins = ∅)
    (hcalls : ∀ function arguments, .call function arguments ∉ content)
    (hbars : ∀ bar, .barLine bar ∈ content → bar.skip = false ∧ bar.order = none) (id : String) :
    (∃ theme bar index bar' index',
      perform r settings instrument id name (pre ++ [.phrase (-1) content] ++ post) =
        some (.error (.undefinedTheme theme bar index)) ∧
      perform r settings instrument id name (pre ++ content ++ post) =
        some (.error (.undefinedTheme theme bar' index'))) ∨
    ∃ p q, perform r settings instrument id name (pre ++ [.phrase (-1) content] ++ post) =
      some (.ok p) ∧
      perform r settings instrument id name (pre ++ content ++ post) = some (.ok q) ∧
      p.SoundsLike q := by
  have hr' : (r.stage instrument).repertoire.OnlyStandard := hr
  have hnested : instrument.opening ++ (pre ++ [.phrase (-1) content] ++ post) =
      (instrument.opening ++ pre) ++ .phrase (-1) content :: post := by simp
  have hflat : instrument.opening ++ (pre ++ content ++ post) =
      (instrument.opening ++ pre) ++ (content ++ post) := by simp
  obtain ⟨⟨u, s'⟩, hu⟩ :=
    playTrack_ends hr' settings ((instrument.opening ++ pre) ++ .phrase (-1) content :: post)
      (.opening name)
  obtain ⟨⟨v, t'⟩, hv⟩ :=
    playTrack_ends hr' settings ((instrument.opening ++ pre) ++ (content ++ post)) (.opening name)
  obtain ⟨hanswers, hs, hfatal⟩ := playTrack_agree hr' hp hcalls hbars hu hv
  rw [perform_eq, perform_eq, hnested, hflat, hu, hv]
  cases hanswers with
  | @error f g hf =>
    refine .inl ?_
    have hf' := hfatal f rfl
    cases hf with
    | undefined theme bar index bar' index' => exact ⟨theme, bar, index, bar', index', rfl, rfl⟩
    | refl =>
      cases f with
      | undefinedTheme theme bar index => exact ⟨theme, bar, index, bar, index, rfl, rfl⟩
      | setting | argument => cases hf'
  | @ok x y h =>
    refine .inr ⟨_, _, rfl, rfl, ?_⟩
    rw [hp]
    exact
      { events := by
          change (t'.eventsAt y.2.events).map _ = (s'.eventsAt x.2.events).map _
          rw [h.alike.events, hs.eventsAt]
        trace := h.trace
        tieLeft := h.tieLeft
        after := h.alike.after
        effects := congrArg Settings.effects h.settings
        findings := by
          change sounding (Performance.dropFinalShort _ _ ++ Performance.finalRemarks _ _ _) =
            sounding (Performance.dropFinalShort _ _ ++ Performance.finalRemarks _ _ _)
          rw [sounding_append, sounding_append, Performance.sounding_dropFinalShort,
            Performance.sounding_dropFinalShort, Performance.sounding_finalRemarks,
            Performance.sounding_finalRemarks, h.alike.findings] }

end Perform

/-- A tie that reaches into a phrase from outside takes hold of the same note as without it. -/
theorem perform_phrase_soundsLike_tied :
    ∃ p q, perform .standard {} {} "" none
        ([.note { pitches := [{ degree := .scale 1 }] }, .tie] ++
          [.phrase (-1) [.note { pitches := [{ degree := .scale 1 }] }, .barLine {},
            .marking "f"]] ++ [.note { pitches := [{ degree := .retrace }] }]) = some (.ok p) ∧
      perform .standard {} {} "" none
        ([.note { pitches := [{ degree := .scale 1 }] }, .tie] ++
          [.note { pitches := [{ degree := .scale 1 }] }, .barLine {}, .marking "f"] ++
            [.note { pitches := [{ degree := .retrace }] }]) = some (.ok q) ∧
      p.SoundsLike q ∧ p.events.map Event.beat = [2, 1] := by
  obtain ⟨p, hp, hbeats⟩ := exists_performance (f := fun p ↦ p.events.map Event.beat) (b := [2, 1])
    (x := perform .standard {} {} "" none
      ([.note { pitches := [{ degree := .scale 1 }] }, .tie] ++
        [.phrase (-1) [.note { pitches := [{ degree := .scale 1 }] }, .barLine {}, .marking "f"]] ++
          [.note { pitches := [{ degree := .retrace }] }])) (by decide +kernel)
  obtain ⟨theme, bar, index, bar', index', he, -⟩ | ⟨p', q, hp', hq, hpq⟩ :=
    @perform_phrase_soundsLike .standard {} {} none
      [.note { pitches := [{ degree := .scale 1 }] }, .barLine {}, .marking "f"]
      [.note { pitches := [{ degree := .scale 1 }] },
        .tie] [.note { pitches := [{ degree := .retrace }] }]
      Repertoire.onlyStandard_standard rfl (by simp) (by simp) ""
  · rw [hp] at he
    cases he
  · rw [hp] at hp'
    cases hp'
    exact ⟨p, q, hp, hq, hpq, hbeats⟩

end Rendition
