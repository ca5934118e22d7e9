import Rendition.Proofs.Play.Nesting
import Rendition.Proofs.Play.Visiting
import Rendition.Proofs.Repertoire.Declaring

namespace Rendition

theorem Table.lookup_eq_none {κ α : Type} [DecidableEq κ] {k : κ} {entries : List (κ × α)}
    (h : k ∉ entries.map Prod.fst) : lookup k entries = none := by
  induction entries with
  | nil => rfl
  | cons entry rest ih =>
    obtain ⟨hne, hrest⟩ : k ≠ entry.1 ∧ k ∉ rest.map Prod.fst := by simpa using h
    rw [lookup, if_neg hne, ih hrest]

def Mark.later (time : Float) (mark : Mark) : Mark := { mark with time := mark.time + time }

namespace Marks

variable (marks : Marks) (group : String) (more : List Mark)

theorem find?_add (g : String) : (marks.add group more).find? g =
    if g = group then some ((marks.find? group).getD [] ++ more) else marks.find? g :=
  marks.find?_insert group g _

variable {marks group} in
theorem keys_add (h : group ∈ marks.keys) : (marks.add group more).keys = marks.keys := by
  rw [add, Table.keys_insert, if_pos h]

theorem keys_addAll (inner : Marks) (time : Float) (h : ∀ group ∈ inner.keys, group ∈ marks.keys) :
    (marks.addAll inner time).keys = marks.keys := by
  obtain ⟨entries⟩ := inner
  unfold addAll
  induction entries generalizing marks with
  | nil => rfl
  | cons entry rest ih =>
    obtain ⟨hfirst, hrest⟩ := List.forall_mem_cons.mp h
    have hkeys := keys_add (entry.2.map (·.later time)) hfirst
    exact (ih (marks.add entry.1 (entry.2.map (·.later time))) (hkeys.symm ▸ hrest)).trans hkeys

theorem find?_addAll (inner : Marks) (time : Float) (h : inner.keys.Nodup) (g : String) :
    (marks.addAll inner time).find? g =
      match inner.find? g with
      | some more => some ((marks.find? g).getD [] ++ more.map (·.later time))
      | none => marks.find? g := by
  obtain ⟨entries⟩ := inner
  change (entries.foldl (fun marks entry ↦ marks.add entry.1 (entry.2.map (·.later time)))
      marks).find? g =
    match Table.lookup g entries with
      | some more => some ((marks.find? g).getD [] ++ more.map (·.later time))
      | none => marks.find? g
  induction entries generalizing marks with
  | nil => rfl
  | cons entry rest ih =>
    obtain ⟨hfirst, hrest⟩ := List.nodup_cons.mp h
    rw [List.foldl_cons, ih _ hrest, find?_add, Table.lookup]
    by_cases hg : g = entry.1
    · rw [if_pos hg, if_pos hg, Table.lookup_eq_none (hg ▸ hfirst), hg]
    · rw [if_neg hg, if_neg hg]

end Marks

namespace Visit

variable (r : Repertoire) (group : String)

def mark? (v : Visit) : Option Mark :=
  match v.symbol with
  | .marking kind => do
    let rule ← r.annotations.find? kind
    if rule.preserve ∧ rule.group = group then
      some ⟨kind, v.scope.progress.barCount, v.scope.progress.index, v.time⟩
    else none
  | _ => none

theorem mark?_eq_none {v : Visit} (h : ∀ kind, v.symbol ≠ .marking kind) :
    v.mark? r group = none := by
  unfold mark?
  split
  next kind hkind => exact absurd hkind (h kind)
  next => rfl

theorem mark?_inside (outer : Scope) (v : Visit) :
    (v.inside outer).mark? r group = (v.mark? r group).map (·.later outer.progress.duration) := by
  rw [mark?, time_inside]
  obtain ⟨around, scope, symbol⟩ := v
  cases symbol with
  | marking kind =>
    simp only [inside, mark?]
    cases r.annotations.find? kind with
    | none => rfl
    | some rule =>
      simp only [Option.bind_eq_bind, Option.bind_some]
      split <;> rfl
  | _ => rfl

end Visit

/-- The marks are those of the visits, group by group, and the kinds are those of the
annotations among them. -/
structure Logs (r : Repertoire) (visits : List Visit) (marks : Marks)
    (after : List String) : Prop where
  keys : marks.keys = r.groups
  marks : ∀ group ∈ r.groups, marks.find? group = some (visits.filterMap (·.mark? r group))
  after : ∀ kind, kind ∈ after ↔ ∃ v ∈ visits, v.symbol = .marking kind

namespace Logs

variable {r : Repertoire} {visits inner : List Visit} {marks : Marks} {after : List String}

theorem pass (h : Logs r visits marks after) {v : Visit} (hv : ∀ kind, v.symbol ≠ .marking kind) :
    Logs r (visits ++ [v]) marks after where
  keys := h.keys
  marks group hg := by
    rw [List.filterMap_append, List.filterMap_cons, v.mark?_eq_none r group hv]
    simpa using h.marks group hg
  after kind := by
    simp [h.after kind, hv kind]

theorem of_eq (h : Logs r visits marks after) {marks' : Marks} {after' : List String}
    (hm : marks' = marks) (ha : after' = after) : Logs r visits marks' after' := by
  subst hm ha
  exact h

end Logs

namespace Scope

variable {stage : Stage} {player : Player} {scope scope' : Scope} {s s' : Session}
  {visits inner : List Visit}

abbrev HasLogged (scope : Scope) (r : Repertoire) (visits : List Visit) : Prop :=
  Logs r visits scope.marks scope.progress.after

theorem hasLogged_enter (settings : Settings) (s : Session) (nested : Bool) :
    (enter stage settings s nested).HasLogged stage.repertoire [] where
  keys := by
    change (stage.repertoire.groups.map (·, [])).map Prod.fst = stage.repertoire.groups
    rw [List.map_map]
    exact List.map_id _
  marks group hg := by
    change Table.lookup group (stage.repertoire.groups.map (·, [])) = some []
    generalize stage.repertoire.groups = groups at hg
    induction groups with
    | nil => cases hg
    | cons first rest ih =>
      rw [List.map_cons, Table.lookup]
      split
      · rfl
      next hne => exact ih ((List.mem_cons.mp hg).resolve_left hne)
  after kind := by simp [enter]

theorem hasLogged_playMarking (hr : stage.repertoire.KeepsMarks)
    (h : scope.HasLogged stage.repertoire visits) (kind : String) :
    (scope.playMarking stage kind).HasLogged stage.repertoire
      (visits ++ [⟨[], scope, .marking kind⟩]) where
  keys := by
    unfold playMarking
    cases hrule : stage.repertoire.annotations.find? kind with
    | none => exact h.keys
    | some rule =>
      have hmem : rule.group ∈ scope.marks.keys := h.keys ▸ hr.mem_groups kind rule hrule
      dsimp only
      split
      · exact (Marks.keys_add _ hmem).trans h.keys
      · exact h.keys
  marks group hg := by
    have hmarks := h.marks group hg
    rw [List.filterMap_append]
    unfold playMarking
    cases hrule : stage.repertoire.annotations.find? kind with
    | none => simpa [Visit.mark?, hrule] using hmarks
    | some rule =>
      dsimp only
      by_cases hpreserve : rule.preserve = true
      · rw [if_pos hpreserve, Marks.find?_add]
        by_cases hgroup : group = rule.group
        · subst hgroup
          simp [Visit.mark?, Visit.time, hrule, hpreserve, hmarks]
        · simpa [Visit.mark?, hrule, hgroup, Ne.symm hgroup] using hmarks
      · simpa [Visit.mark?, hrule, hpreserve] using hmarks
  after k := by
    have hinsert : k ∈ (scope.playMarking stage kind).progress.after ↔ k = kind ∨
        k ∈ scope.progress.after :=
      mem_insertKind
    rw [hinsert, h.after]
    simp [or_comm, eq_comm]

theorem hasLogged_absorb (hr : stage.repertoire.KeepsMarks)
    (h : scope.HasLogged stage.repertoire visits) {passage : Passage}
    (hp : Logs stage.repertoire inner passage.marks passage.progress.after) {outer : Scope}
    (ho : outer.progress = scope.progress) :
    (scope.absorb stage passage).HasLogged stage.repertoire
      (visits ++ inner.map (·.inside outer)) := by
  have hmarks : (scope.absorb stage passage).marks =
      scope.marks.addAll passage.marks scope.progress.duration := by
    unfold absorb
    dsimp only
    rw [hr.collect, (scope.joinBars_recounts passage.progress).marks]
  refine ⟨?_, ?_, ?_⟩
  · rw [hmarks, Marks.keys_addAll _ _ _ (by rw [h.keys, hp.keys]; exact fun _ hg ↦ hg), h.keys]
  · intro group hg
    have hinside : (inner.map (·.inside outer)).filterMap (·.mark? stage.repertoire group) =
        (inner.filterMap (·.mark? stage.repertoire group)).map
        (·.later scope.progress.duration) := by
      rw [List.filterMap_map, List.map_filterMap, ← ho]
      exact congrArg (List.filterMap · inner) (funext fun v ↦
        v.mark?_inside stage.repertoire group outer)
    rw [hmarks, Marks.find?_addAll _ _ _ (hp.keys ▸ hr.nodup), hp.marks group hg, h.marks group hg,
      List.filterMap_append, hinside]
    rfl
  · intro kind
    rw [mem_after_absorb, h.after, hp.after]
    simp [or_and_right, exists_or, Visit.inside]

end Scope

/-- The passages of a player keep marks of what a tour lists. -/
def Player.Logs (player : Player) (r : Repertoire) (tour : Tour) : Prop :=
  ∀ settings remarks symbols s passage s', outcome (player settings remarks symbols) s =
    some (.ok passage, s') →
    Rendition.Logs r (tour settings remarks symbols s) passage.marks passage.progress.after

section Run

variable {stage : Stage} {player : Player} {tour : Tour} {scope scope' : Scope} {s s' : Session}
  {visits : List Visit} {index : Nat} {symbol : Symbol} {symbols : List Symbol}

theorem Scope.hasLogged_take (hr : stage.repertoire.KeepsMarks)
    (h : scope.HasLogged stage.repertoire visits) {settings : Settings} {remarks : List Remark}
    (hplayer : player.Logs stage.repertoire tour) {s₀ s₁ : Session} {r : Except Fault Passage}
    (hplay : outcome (player settings remarks symbols) s₀ = some (r, s₁))
    (he : .ok scope' = (scope.take stage s r).1) :
    scope'.HasLogged stage.repertoire
      (visits ++ (tour settings remarks symbols s₀).map (·.inside scope)) := by
  cases r with
  | error fault => cases he
  | ok passage =>
    obtain rfl := Except.ok.inj he
    exact hasLogged_absorb hr h (hplayer _ _ _ _ _ _ hplay) rfl

theorem Scope.hasLogged_call (hstage : stage.repertoire.KeepsMarks) (hend : player.EndsFatally)
    (hplayer : player.Logs stage.repertoire tour) (h : scope.HasLogged stage.repertoire visits)
    {name : String} {arguments : List Argument} {function : Function} {values : List Value}
    (hf : stage.repertoire.functions.find? name = some function)
    (hv : arguments.mapM Value.ofArgument = .ok values) {r : Except Fault (Option Passage)}
    {scope₁ : Scope} {s₁ : Session}
    (hanswer : (answer stage player name function.access (function.body name values) scope).run s =
      some ((r, scope₁), s₁)) (he : .ok scope' = (scope₁.receive stage s₁ name r).1) :
    scope'.HasLogged stage.repertoire
      (visits ++ (scope.interludes stage player name arguments s).flatMap (·.visits tour)) := by
  obtain ⟨f, hmem, -, hbody⟩ := hstage.standard name function hf
  have hm : (function.body name values).Modest (Script.phrasesOf values) :=
    hbody ▸ Script.modest_standard f hmem name values
  obtain ⟨⟨settings, rfl⟩, -⟩ := modestly_of_answer hm hanswer
  rw [interludes_eq _ _ hf hv]
  obtain ⟨hnone, hr⟩ | ⟨phrase, -, overrides, u, hi, hplay, rfl⟩ := interludes_of_modest hm hanswer
  · rw [hnone, List.flatMap_nil, List.append_nil]
    match r, he, hr with
    | .ok none, he, _ | .error (.setting ..), he, _ | .error (.argument ..), he, _ =>
      obtain rfl := Except.ok.inj he
      exact h
    | .ok (some passage), _, hr => exact absurd rfl (hr passage)
  · rw [hi, List.flatMap_singleton]
    cases u with
    | ok passage =>
      obtain rfl := Except.ok.inj he
      have hset : ({ scope with settings } : Scope).HasLogged stage.repertoire visits := h
      exact hasLogged_absorb hstage hset (hplayer _ _ _ _ _ _ hplay) rfl
    | error fault =>
      -- The fault of a passage is fatal, and would have ended this one too.
      have hfatal := hend _ _ _ _ _ _ hplay
      rw [not_fatal_of_receive he.symm] at hfatal
      cases hfatal

theorem Scope.hasLogged_symbol (hr : stage.repertoire.KeepsMarks) (hend : player.EndsFatally)
    (hplayer : player.Logs stage.repertoire tour) (h : scope.HasLogged stage.repertoire visits)
    (hsymbol : outcome (scope.playSymbol stage player symbol) s = some (.ok scope', s')) :
    scope'.HasLogged stage.repertoire
      (visits ++ ⟨[], scope, symbol⟩ :: scope.symbolVisits stage player tour s symbol) := by
  have hstep := step_of_outcome hsymbol
  generalize hres : Except.ok scope' = r at hstep
  rw [List.append_cons]
  have hpass : (∀ kind, symbol ≠ .marking kind) →
      scope.HasLogged stage.repertoire (visits ++ [⟨[], scope, symbol⟩]) :=
    fun hs ↦ h.pass hs
  cases hstep with
  | marking kind =>
    obtain rfl := Except.ok.inj hres
    rw [symbolVisits, List.append_nil]
    exact hasLogged_playMarking hr h kind
  | note note =>
    obtain rfl := Except.ok.inj hres
    rw [symbolVisits, List.append_nil]
    exact (hpass fun _ ↦ Symbol.noConfusion).of_eq rfl (scope.noted_after stage s note)
  | tie =>
    obtain rfl := Except.ok.inj hres
    rw [symbolVisits, List.append_nil]
    exact hpass fun _ ↦ Symbol.noConfusion
  | barLine bar =>
    obtain rfl := Except.ok.inj hres
    rw [symbolVisits, List.append_nil]
    exact (hpass fun _ ↦ Symbol.noConfusion).of_eq (scope.playBarLine_recounts bar).marks
      (scope.playBarLine_recounts bar).after
  | inert _ hs =>
    obtain rfl := Except.ok.inj hres
    cases symbol with
    | clef | comment | space =>
      rw [symbolVisits, List.append_nil]
      exact hpass fun _ ↦ Symbol.noConfusion
    | note | call | phrase | theme | tie | barLine | marking => cases hs
  | phrase times content r s₁ hplay =>
    exact hasLogged_take hr (hpass fun _ ↦ Symbol.noConfusion) hplayer hplay hres
  | undefined => cases hres
  | active name content hc ha =>
    obtain rfl := Except.ok.inj hres
    rw [symbolVisits, hc]
    simp only [if_pos ha, List.append_nil]
    exact hpass fun _ ↦ Symbol.noConfusion
  | theme name content hc ha r s₁ hplay =>
    rw [symbolVisits, hc]
    simp only [if_neg ha]
    exact hasLogged_take hr (hpass fun _ ↦ Symbol.noConfusion) hplayer hplay hres
  | unknown name arguments hf =>
    obtain rfl := Except.ok.inj hres
    rw [symbolVisits, interludes, hf]
    simp only [List.flatMap_nil, List.append_nil]
    exact hpass fun _ ↦ Symbol.noConfusion
  | formula name arguments function source fault hf hv =>
    obtain rfl := Except.ok.inj hres
    rw [symbolVisits, interludes, hf, hv]
    simp only [List.flatMap_nil, List.append_nil]
    exact hpass fun _ ↦ Symbol.noConfusion
  | call name arguments function values hf hv r scope₁ s₁ hanswer =>
    exact hasLogged_call hr hend hplayer (hpass fun _ ↦ Symbol.noConfusion) hf hv hanswer hres

theorem Scope.hasLogged_symbols (hr : stage.repertoire.KeepsMarks) (hend : player.EndsFatally)
    (hplayer : player.Logs stage.repertoire tour) (h : scope.HasLogged stage.repertoire visits)
    (hrun : outcome (scope.playFrom stage player index symbols) s = some (.ok scope', s')) :
    scope'.HasLogged stage.repertoire (visits ++ scope.visitsFrom stage player tour index
      symbols s) := by
  induction symbols generalizing index scope s visits with
  | nil =>
    cases hrun
    rw [visitsFrom, List.append_nil]
    exact h
  | cons symbol rest ih =>
    rw [outcome_playFrom_cons, andThen_eq_ok] at hrun
    obtain ⟨scope₁, s₁, hsymbol, hrest⟩ := hrun
    rw [visitsFrom, hsymbol, ← List.append_assoc]
    exact ih (hasLogged_symbol hr hend hplayer (show (scope.atIndex index).HasLogged _ visits
      from h) hsymbol) hrest

theorem Scope.HasLogged.conclude (h : scope.HasLogged stage.repertoire visits) (s : Session) :
    Logs stage.repertoire visits (scope.conclude s).marks (scope.conclude s).progress.after :=
  h.of_eq scope.settleVoices_recounts.marks scope.settleVoices_recounts.after

theorem playerOf_logs (hr : stage.repertoire.KeepsMarks) (depth : Nat) :
    (playerOf stage depth).Logs stage.repertoire (visitsOf stage depth) := by
  induction depth with
  | zero => exact fun _ _ _ _ _ _ h ↦ nomatch h
  | succ depth ih =>
    intro settings remarks symbols s passage s' h
    obtain ⟨_, scope, ⟨⟩, hrun, rfl⟩ := playerOf_ok h
    have hbegin : (Scope.begin stage s settings remarks).HasLogged stage.repertoire [] :=
      Scope.hasLogged_enter settings s true
    exact (Scope.hasLogged_symbols hr (playerOf_endsFatally stage depth) ih hbegin hrun).conclude s'

theorem playTrack_logs (hr : stage.repertoire.KeepsMarks) {settings last : Settings}
    {passage : Passage}
    (h : outcome (playTrack stage settings symbols) s = some (.ok (last, passage), s')) :
    Logs stage.repertoire (trackVisits stage settings symbols s) passage.marks
      passage.progress.after := by
  obtain ⟨scope, hrun, -, rfl⟩ := playTrack_ok h
  exact (Scope.hasLogged_symbols hr (playerOf_endsFatally stage _) (playerOf_logs hr _)
    (Scope.hasLogged_enter settings s false) hrun).conclude _

end Run

/-- Marks are conserved, whatever has been made known to a repertoire: each annotation whose kind it
preserves gives one mark, which keeps its place in the group of its rule and is moved by the clock
of each passage around. -/
theorem perform_conserves_marks {r₀ r : Repertoire} {registrations : List Registration}
    (hrules : r₀.annotations = ∅) (hgroups : r₀.groups = []) (hplugins : r₀.plugins = ∅)
    (hstandard : r₀.OnlyStandard)
    (hleave : ∀ registration ∈ registrations, registration.LeavesMarks)
    (hr : r = r₀.registerAll registrations) :
    r.Declares (registrations.flatMap Registration.rules) ∧ r.groups.Nodup ∧
      (∀ registration ∈ registrations, ∀ rule ∈ registration.rules, rule.2.group ∈ r.groups) ∧
      (∀ names depth settings remarks symbols s passage s',
        outcome (playerOf ⟨r, names⟩ depth settings remarks symbols) s = some (.ok passage, s') →
          Logs r (visitsOf ⟨r, names⟩ depth settings remarks symbols s) passage.marks
            passage.progress.after) ∧
      ∀ settings instrument id name content performance,
        perform r settings instrument id name content = some (.ok performance) →
          ∃ p : Performance, performance = r.plugins.complete p ∧
            Logs r (trackVisits (r.stage instrument) settings (instrument.opening ++ content)
              (.opening name)) p.marks
              p.progress.after := by
  subst hr
  have hempty : r₀.Declares [] := ⟨by rw [hgroups]; rfl, by rw [hrules]; exact fun _ ↦ rfl⟩
  have hdeclares :
      (r₀.registerAll registrations).Declares (registrations.flatMap Registration.rules) :=
    hempty.registerAll registrations
  have honly : (r₀.registerAll registrations).OnlyStandard := by
    rw [Repertoire.OnlyStandard, r₀.registerAll_functions]
    exact hstandard
  have hkeeps : (r₀.registerAll registrations).KeepsMarks :=
    hdeclares.keepsMarks honly (Repertoire.leaveMarks_registerAll (hplugins ▸ nofun) hleave)
  refine ⟨hdeclares, hdeclares.nodup, ?_, ?_, ?_⟩
  · intro registration hmem rule hrule
    rw [hdeclares.groups, List.mem_eraseDups]
    exact List.mem_map_of_mem (List.mem_flatMap_of_mem hmem hrule)
  · intro names depth settings remarks symbols s passage s' h
    exact @playerOf_logs ⟨r₀.registerAll registrations, names⟩ hkeeps depth _ _ _ _ _ _ h
  · intro settings instrument id name content performance h
    rw [perform_eq] at h
    obtain ⟨⟨answer, s'⟩, hplay, he⟩ := Option.map_eq_some_iff.mp h
    cases answer with
    | error fault => cases he
    | ok played =>
      cases he
      have hstage : ((r₀.registerAll registrations).stage instrument).repertoire.KeepsMarks :=
        hkeeps
      exact ⟨_, rfl, playTrack_logs hstage hplay⟩

namespace Marking

def note : Symbol := .note { pitches := [{ degree := .scale 1 }] }

def registrations : List Registration :=
  [.extend { annotations := [("Accent", ⟨false, "Articulation"⟩),
    ("Fermata", ⟨true, "Articulation"⟩)] }, .addPlugin "bowing" { annotations := [("UpBow",
      ⟨true, "Bowing"⟩)] }, .declare "Accent" ⟨true, "Stress"⟩]

def content : List Symbol :=
  [.marking "Accent", note, .phrase 2 [note, .theme "A"],
    .call "Transpose" [.number 2, .symbol (.phrase (-1) [note, .marking "UpBow"])],
    .marking "Trill"]

def blank : Repertoire :=
  { Repertoire.standard with themes := .ofList [("A", [note, .marking "Fermata"])] }

def library : Repertoire := blank.registerAll registrations

end Marking

open Marking in
theorem perform_conserves_marks_bowing : ∃ p, perform library {} {} "" none content = some (.ok p) ∧
    p.marks.entries.map (fun entry ↦ (entry.1, entry.2.map fun mark ↦ (mark.kind, mark.time))) =
      [("Articulation", [("Fermata", 3), ("Fermata", 5)]), ("Bowing", [("UpBow", 6)]),
        ("Stress", [("Accent", 0)])] ∧
    p.progress.after = ["Accent", "Fermata", "Trill", "UpBow"] ∧
    Logs library (trackVisits (library.stage {}) {} content (.opening none)) p.marks
      p.progress.after := by
  obtain ⟨p, hp, hmarks⟩ := exists_performance (f := fun p ↦ (p.marks.entries.map fun entry ↦
      (entry.1, entry.2.map fun mark ↦ (mark.kind, mark.time)), p.progress.after))
    (b := ([("Articulation", [("Fermata", 3), ("Fermata", 5)]), ("Bowing", [("UpBow", 6)]),
      ("Stress", [("Accent", 0)])], ["Accent", "Fermata", "Trill", "UpBow"]))
    (x := perform library {} {} "" none content) (by decide +kernel)
  obtain ⟨-, -, -, -, htrack⟩ := @perform_conserves_marks blank library registrations rfl rfl rfl
    Repertoire.onlyStandard_standard
    (by simp [registrations, Registration.LeavesMarks, Plugin.LeavesMarks]) rfl
  obtain ⟨q, he, hlogs⟩ := htrack {} {} "" none content p hp
  obtain rfl : p = q := he
  obtain ⟨hentries, hafter⟩ := Prod.mk.inj hmarks
  exact ⟨p, hp, hentries, hafter, hlogs⟩

end Rendition
