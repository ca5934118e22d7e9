import Rendition.Proofs.Play.Interlude
import Rendition.Proofs.Play.Keeping

namespace Rendition

variable {stage : Stage} {player : Player} {scope : Scope} {s s' : Session} {phrase : Phrase}
  {overrides : Overrides} {name : String} {access : Access}

theorem Session.prefix_record (s : Session) (tones : List Tone) :
    s.trace <+: (s.record tones).trace := by
  unfold record
  split
  · exact List.prefix_rfl
  · exact List.prefix_append s.trace [tones]

namespace Access

theorem writes_eq_false (ha : access ≠ .full) : access.writes = false := by
  cases access with
  | full => exact absurd rfl ha
  | readOnly | isolated => rfl

theorem reclaim_trace (ha : access ≠ .full) {t : Session} (h : (access.lend s).trace <+: t.trace) :
    (access.reclaim s t).trace = s.trace := by
  cases access with
  | full => exact absurd rfl ha
  | readOnly => exact (List.prefix_iff_eq_take.mp h).symm
  | isolated => rfl

theorem prefix_reclaim (access : Access) {s t : Session} (h : (access.lend s).trace <+: t.trace) :
    s.trace <+: (access.reclaim s t).trace := by
  by_cases ha : access = .full
  · subst ha
    exact h
  · exact (reclaim_trace ha h).symm ▸ List.prefix_rfl

end Access

theorem Session.added_trace : Session.Added fun s s' ↦ s'.trace = s.trace where
  refl _ := rfl
  trans h h' := h'.trans h
  later s ids time beats := s.later_trace ids time beats

theorem Session.kept_trace : Session.Kept stage fun s s' ↦ s.trace <+: s'.trace where
  refl _ := List.prefix_rfl
  trans h h' := h.trans h'
  note scope s note := by
    rw [Scope.noted_trace]
    exact s.prefix_record _
  tie _ := List.prefix_rfl
  later s ids time beats := (s.later_trace ids time beats).symm ▸ List.prefix_rfl
  record s entry := List.prefix_append s.trace [entry]
  reclaim access {_ _} h := access.prefix_reclaim h
  leave _ {_ _} h := h

theorem Scope.playPhrase_isolated (t : Trace) :
    (scope.playPhrase player phrase overrides .isolated).run { s with trace := t } =
      ((scope.playPhrase player phrase overrides .isolated).run s).map
        fun x ↦ (x.1, { x.2 with trace := t }) := by
  rw [playPhrase_run, playPhrase_run, Option.map_map]
  rfl

/-- What a passage that a function plays does to the trace around it: with full access it adds
entries at the end, with less it leaves the trace alone, and in isolation it does not depend on it
either, whether or not a fault ends it. -/
theorem playPhrase_guards_trace {depth : Nat} {r : Except Fault Passage}
    (h : (scope.playPhrase (playerOf stage depth) phrase overrides access).run s = some (r, s')) :
    (access = .full → s.trace <+: s'.trace) ∧
      (access ≠ .full → s'.trace = s.trace) ∧
      (access = .isolated → ∀ t : Trace,
        (scope.playPhrase (playerOf stage depth) phrase overrides access).run
            { s with trace := t } = some (r, { s' with trace := t })) := by
  have hplayer : (playerOf stage depth).Keeps fun s s' ↦ s.trace <+: s'.trace :=
    Session.kept_trace.playerOf depth
  refine ⟨fun _ ↦ hplayer.playPhrase Access.prefix_reclaim h, fun ha ↦ ?_, ?_⟩
  · rw [Scope.playPhrase_run] at h
    obtain ⟨⟨u, s₁⟩, hplay, he⟩ := Option.map_eq_some_iff.mp h
    cases he
    exact Access.reclaim_trace ha (hplayer _ _ _ _ _ _ hplay)
  · rintro rfl t
    rw [Scope.playPhrase_isolated, h]
    rfl

/-- A note in isolation, before a theme that there is not: the note has started an event, but
its tones are gone. -/
theorem playPhrase_guards_trace_undefined : ∃ r s',
    ((Scope.enter ⟨{}, ∅⟩ {} {} true).playPhrase (playerOf ⟨{}, ∅⟩ 1)
      { content := [.note { pitches := [{ degree := .scale 1 }] }, .theme "A"] } {} .isolated).run
        { trace := [[⟨7, 1, false⟩]] } = some (.error r, s') ∧
    s'.events.size = 1 ∧ s'.trace = [[⟨7, 1, false⟩]] := by
  obtain ⟨⟨r, s'⟩, hrun, he⟩ := Option.map_eq_some_iff.mp (show
    (((Scope.enter ⟨{}, ∅⟩ {} {} true).playPhrase (playerOf ⟨{}, ∅⟩ 1)
      { content := [.note { pitches := [{ degree := .scale 1 }] }, .theme "A"] } {} .isolated).run
        { trace := [[⟨7, 1, false⟩]] }).map (fun x ↦ (x.1.toOption, x.2.events.size)) =
        some (none, 1) by
      decide +kernel)
  obtain ⟨hr, hsize⟩ := Prod.mk.inj he
  cases r with
  | ok passage => cases hr
  | error fault => exact ⟨fault, s', hrun, hsize, (playPhrase_guards_trace hrun).2.1 nofun⟩

def Interlude.recorded (player : Player) (i : Interlude) : Trace :=
  (i.run player).elim [] fun x ↦ x.2.trace.drop i.session.trace.length

section Calls

variable (hplayer : player.Keeps fun s s' ↦ s.trace <+: s'.trace)
include hplayer

theorem Interlude.trace_eq {i : Interlude} {r : Except Fault Passage}
    (h : i.run player = some (r, s')) :
    s'.trace = i.session.trace ++ i.recorded player := by
  obtain ⟨added, he⟩ := hplayer.playPhrase Access.prefix_reclaim h
  rw [recorded, h, Option.elim_some, ← he, List.drop_left]

theorem Interlude.recorded_eq_nil {i : Interlude} (ha : i.access ≠ .full) :
    i.recorded player = [] := by
  rw [recorded]
  cases h : i.run player with
  | none => rfl
  | some x =>
    rw [run, Scope.playPhrase_run] at h
    obtain ⟨⟨u, s₁⟩, hplay, he⟩ := Option.map_eq_some_iff.mp h
    rw [← he, Option.elim_some, Access.reclaim_trace ha (hplayer _ _ _ _ _ _ hplay),
      List.drop_length]

theorem Scope.answer_recorded {α : Type} (ha : access.writes = false) {script : Script α}
    {r : Except Fault α × Scope}
    (h : (scope.answer stage player name access script).run s = some (r, s')) :
    s'.trace = s.trace ++ (scope.interludesOf stage player name access script s).flatMap
      (·.recorded player) := by
  induction script generalizing scope s with
  | done | fail =>
    cases h
    exact (List.append_nil _).symm
  | play phrase overrides inner next ih =>
    rw [answer_play, Option.bind_eq_some_iff] at h
    obtain ⟨⟨u, s₁⟩, hplay, hrest⟩ := h
    have hrun : Interlude.run player ⟨scope, s, phrase, overrides, inner⟩ = some (u, s₁) := hplay
    rw [interludesOf, hrun, List.flatMap_cons, ih u hrest, Interlude.trace_eq hplayer hrun,
      List.append_assoc]
  | join passages next ih =>
    rw [answer_join] at h
    rw [interludesOf, ih _ h, Session.added_trace.join]
  | remark message next ih => exact ih h
  | settings next ih => exact ih _ h
  | setSettings settings next ih =>
    rw [answer_setSettings] at h
    exact ih h
  | trace next ih => exact ih _ h
  | record entry next ih =>
    rw [answer_record, ha] at h
    rw [interludesOf, ha]
    exact ih _ h
  | progress next ih => exact ih _ h

end Calls

/-- Where a function may not write the trace, a call of it still adds what the interludes add that
its body plays with full access. It leaves the trace alone just if those add nothing. -/
theorem call_records_interludes {depth : Nat} {function : Function} {arguments : List Argument}
    {r : Except Fault Scope} (hf : stage.repertoire.functions.find? name = some function)
    (ha : function.access ≠ .full)
    (h : outcome (scope.playSymbol stage (playerOf stage depth) (.call name arguments)) s =
      some (r, s')) :
    s'.trace = s.trace ++ (scope.interludes stage (playerOf stage depth) name arguments s).flatMap
        (·.recorded (playerOf stage depth)) ∧
      (∀ i ∈ scope.interludes stage (playerOf stage depth) name arguments s, i.access ≠ .full →
        i.recorded (playerOf stage depth) = []) ∧
      (s'.trace = s.trace ↔ ∀ i ∈ scope.interludes stage (playerOf stage depth) name arguments s,
        i.access = .full →
        i.recorded (playerOf stage depth) = []) := by
  have hplayer : (playerOf stage depth).Keeps fun s s' ↦ s.trace <+: s'.trace :=
    Session.kept_trace.playerOf depth
  have hless : ∀ i ∈ scope.interludes stage (playerOf stage depth) name arguments s,
      i.access ≠ .full →
      i.recorded (playerOf stage depth) = [] := fun i _ hi ↦ Interlude.recorded_eq_nil hplayer hi
  have htrace :
      s'.trace = s.trace ++ (scope.interludes stage (playerOf stage depth) name arguments s).flatMap
      (·.recorded (playerOf stage depth)) := by
    cases hv : arguments.mapM Value.ofArgument with
    | error e =>
      rw [Scope.outcome_call_error _ _ _ _ hf hv] at h
      cases h
      rw [Scope.interludes, hf, hv]
      exact (List.append_nil _).symm
    | ok values =>
      rw [Scope.outcome_call _ _ _ _ hf hv] at h
      obtain ⟨⟨⟨v, scope₁⟩, s₁⟩, hanswer, he⟩ := Option.map_eq_some_iff.mp h
      obtain rfl : _ = s' := congrArg Prod.snd he
      rw [Session.added_trace.receive, Scope.interludes_eq _ _ hf hv]
      exact Scope.answer_recorded hplayer (Access.writes_eq_false ha) hanswer
  refine ⟨htrace, hless, ?_⟩
  rw [htrace, List.append_right_eq_self, List.flatMap_eq_nil_iff]
  refine ⟨fun hnone i hi _ ↦ hnone i hi, fun hfull i hi ↦ ?_⟩
  by_cases hi' : i.access = .full
  · exact hfull i hi hi'
  · exact hless i hi hi'

namespace Peeking

def library : Repertoire where
  functions := .ofList [("Peek", {
    access := .readOnly
    body := fun _ _ ↦
      .play { content := [.note { pitches := [{ degree := .scale 1 }] }] } {} .full fun _ ↦
        .done none })]

end Peeking

theorem call_records_interludes_peeking : ∃ r s',
    outcome ((Scope.enter ⟨Peeking.library, ∅⟩ {} {} false).playSymbol ⟨Peeking.library, ∅⟩
      (playerOf ⟨Peeking.library, ∅⟩ 1) (.call "Peek" [])) {} = some (r, s') ∧
    s'.trace = [[⟨0, 1, false⟩]] ∧
    ¬∀ i ∈ (Scope.enter ⟨Peeking.library, ∅⟩ {} {} false).interludes ⟨Peeking.library, ∅⟩
      (playerOf ⟨Peeking.library, ∅⟩ 1) "Peek" [] {}, i.access = .full →
        i.recorded (playerOf ⟨Peeking.library, ∅⟩ 1) = [] := by
  obtain ⟨⟨r, s'⟩, hrun, he⟩ := Option.map_eq_some_iff.mp (show
    (outcome ((Scope.enter ⟨Peeking.library, ∅⟩ {} {} false).playSymbol ⟨Peeking.library, ∅⟩
      (playerOf ⟨Peeking.library, ∅⟩ 1) (.call "Peek" [])) {}).map (fun x ↦ x.2.trace) =
      some [[⟨0, 1, false⟩]] by
      decide +kernel)
  refine ⟨r, s', hrun, he, fun hnone ↦ ?_⟩
  obtain ⟨function, hf, ha⟩ : ∃ function, Peeking.library.functions.find? "Peek" = some function ∧
      function.access ≠ .full := ⟨_, rfl, by decide⟩
  have hsame := (call_records_interludes hf ha hrun).2.2.mpr hnone
  rw [show s'.trace = [[⟨0, 1, false⟩]] from he] at hsame
  cases hsame

end Rendition
