import Rendition.Proofs.Play.Modest
import Rendition.Proofs.Play.Pointing
import Rendition.Proofs.Script.Cautious

namespace Rendition

variable {stage : Stage} {player : Player} {scope scope' : Scope} {s s' : Session}

/-- Whether a finding tells that a call has failed: one of its formulas has no value, or
its function refuses. -/
def Finding.isOfCall : Finding → Bool
  | .badExpression .. | .function .. => true
  | _ => false

theorem Finding.isMetric_of_isOfCall {finding : Finding} (h : finding.isOfCall) :
    finding.isMetric = false := by
  cases finding <;> first | rfl | cases h

namespace Scope

def Places (scope scope' : Scope) : Prop :=
  ∃ added, scope'.remarks = scope.remarks ++ added ∧ ∀ remark ∈ added, remark.path ≠ []

namespace Places

theorem of_eq (h : scope'.remarks = scope.remarks) : scope.Places scope' :=
  ⟨[], by simpa using h, nofun⟩

theorem refl (scope : Scope) : scope.Places scope := of_eq rfl

theorem trans {scope'' : Scope} (h : scope.Places scope') (h' : scope'.Places scope'') :
    scope.Places scope'' := by
  obtain ⟨added, he, hplaced⟩ := h
  obtain ⟨more, he', hplaced'⟩ := h'
  refine ⟨added ++ more, by rw [he', he, List.append_assoc], ?_⟩
  intro remark hmem
  exact (List.mem_append.mp hmem).elim (hplaced remark) (hplaced' remark)

end Places

theorem places_remark (scope : Scope) (finding : Finding) : scope.Places (scope.remark finding) :=
  ⟨_, rfl, List.forall_mem_singleton.mpr (List.cons_ne_nil _ _)⟩

theorem path_of_mem_barRemarks {beats time : Float} {remark : Remark}
    (h : remark ∈ scope.barRemarks beats time) :
    remark.path ≠ [] := by
  unfold barRemarks at h
  split at h
  · cases h
  · obtain rfl := List.mem_singleton.mp h
    exact List.cons_ne_nil _ _

theorem places_endBar (scope : Scope) (terminal : Bool) : scope.Places (scope.endBar terminal) := by
  rw [endBar_eq]
  split
  · exact .refl scope
  · refine ⟨_, rfl, ?_⟩
    intro remark hmem
    split at hmem
    · cases hmem
    · exact path_of_mem_barRemarks hmem

theorem places_playBarLine (scope : Scope) (bar : BarLine) :
    scope.Places (scope.playBarLine bar) := by
  unfold playBarLine
  dsimp only
  split
  · exact (scope.places_endBar bar.terminal).trans (.of_eq rfl)
  · exact scope.places_endBar bar.terminal

theorem places_noted (scope : Scope) (s : Session) (note : Note) :
    scope.Places (scope.noted stage s note).1 := by
  refine ⟨_, rfl, ?_⟩
  intro remark hmem
  rw [(Note.isOfNote_of_mem_play hmem).2]
  exact List.cons_ne_nil _ _

theorem places_settleVoices (scope : Scope) : scope.Places scope.settleVoices := by
  unfold settleVoices
  dsimp only
  split
  · exact .refl scope
  · split
    · exact ⟨_, rfl, List.forall_mem_singleton.mpr (List.cons_ne_nil _ _)⟩
    · exact .of_eq rfl

theorem remarks_absorb (stage : Stage) (scope : Scope) (passage : Passage) : ∃ bars,
    (scope.absorb stage passage).remarks =
      scope.remarks ++ (bars ++ passage.remarks.map
        (·.within scope.place scope.progress.duration)) ∧
    ∀ remark ∈ bars, remark.path ≠ [] ∧ remark.finding.isMetric := by
  obtain ⟨bars, hjoin, hbars⟩ : ∃ bars, (scope.joinBars passage.progress).remarks =
      scope.remarks ++ bars ∧
      ∀ remark ∈ bars, remark.path ≠ [] ∧ remark.finding.isMetric := by
    rw [joinBars_eq]
    split
    · exact ⟨[], (List.append_nil _).symm, nofun⟩
    · refine ⟨_, rfl, ?_⟩
      intro remark hmem
      split at hmem
      · cases hmem
      · exact ⟨path_of_mem_barRemarks hmem, isMetric_of_mem_barRemarks hmem⟩
  refine ⟨bars, ?_, hbars⟩
  change (scope.joinBars passage.progress).remarks ++ _ = _
  rw [hjoin, List.append_assoc]

theorem places_absorb (scope : Scope) (passage : Passage) :
    scope.Places (scope.absorb stage passage) := by
  obtain ⟨bars, he, hbars⟩ := scope.remarks_absorb stage passage
  refine ⟨_, he, ?_⟩
  intro remark hmem
  obtain hmem | hmem := List.mem_append.mp hmem
  · exact (hbars remark hmem).1
  · obtain ⟨inner, -, rfl⟩ := List.mem_map.mp hmem
    exact List.cons_ne_nil _ _

theorem places_take {r : Except Fault Passage} (h : (scope.take stage s r).1 = .ok scope') :
    scope.Places scope' := by
  cases r with
  | error fault => cases h
  | ok passage =>
    cases h
    exact scope.places_absorb passage

theorem places_receive {name : String} {r : Except Fault (Option Passage)}
    (h : (scope.receive stage s name r).1 = .ok scope') : scope.Places scope' := by
  match r, h with
  | .ok none, h =>
    cases h
    exact .refl scope
  | .ok (some passage), h =>
    cases h
    exact scope.places_absorb passage
  | .error (.undefinedTheme ..), h => cases h
  | .error (.setting ..), h | .error (.argument ..), h =>
    cases h
    exact scope.places_remark _

theorem places_answer {α : Type} {name : String} {access : Access} {script : Script α}
    {r : Except Fault α}
    (h : (answer stage player name access script scope).run s =
      some ((r, scope'), s')) : scope.Places scope' := by
  induction script generalizing scope s with
  | done | fail =>
    cases h
    exact .refl _
  | play phrase overrides inner next ih =>
    rw [answer_play, Option.bind_eq_some_iff] at h
    obtain ⟨_, -, hrest⟩ := h
    exact ih _ hrest
  | join passages next ih =>
    rw [answer_join] at h
    exact ih _ h
  | remark message next ih => exact (scope.places_remark _).trans (ih h)
  | settings next ih => exact ih _ h
  | setSettings settings next ih =>
    rw [answer_setSettings] at h
    have hplaces := ih h
    exact hplaces
  | trace next ih => exact ih _ h
  | record entry next ih =>
    rw [answer_record] at h
    exact ih _ h
  | progress next ih => exact ih _ h

theorem places_symbol {symbol : Symbol}
    (h : outcome (scope.playSymbol stage player symbol) s = some (.ok scope', s')) :
    scope.Places scope' := by
  have hstep := step_of_outcome h
  generalize hr : Except.ok scope' = r at hstep
  cases hstep with
  | note note =>
    cases hr
    exact scope.places_noted s note
  | barLine bar =>
    cases hr
    exact scope.places_playBarLine bar
  | tie | marking | inert =>
    cases hr
    exact .of_eq rfl
  | undefined => cases hr
  | phrase | theme => exact places_take hr.symm
  | active | unknown | formula =>
    cases hr
    exact scope.places_remark _
  | call name arguments function values hf hv r scope₁ s₁ hrun =>
    exact (places_answer hrun).trans (places_receive hr.symm)

theorem places_playFrom {index : Nat} {symbols : List Symbol}
    (h : outcome (scope.playFrom stage player index symbols) s = some (.ok scope', s')) :
    scope.Places scope' := by
  have hrun := playFrom_invariant (I := fun scope₁ _ ↦ scope.Places scope₁) (E := fun _ _ ↦ True)
    (fun index _ scope₁ _ scope₂ _ hi hs ↦
      hi.trans (show (scope₁.atIndex index).Places scope₂ from places_symbol hs))
    (fun _ _ _ _ _ _ _ _ ↦ trivial) (.refl scope) h
  obtain ⟨scope₁, he, hplaces⟩ | ⟨fault, he, -⟩ := hrun
  · cases he
    exact hplaces
  · cases he

end Scope

theorem path_of_mem_playerOf {depth : Nat} {settings : Settings} {remarks : List Remark}
    {symbols : List Symbol} {passage : Passage}
    (h : outcome (playerOf stage depth settings remarks symbols) s = some (.ok passage, s'))
    (hremarks : ∀ remark ∈ remarks, remark.path ≠ []) :
    ∀ remark ∈ passage.remarks, remark.path ≠ [] := by
  cases depth with
  | zero => cases h
  | succ depth =>
    rw [outcome_playerOf, Option.map_eq_some_iff] at h
    obtain ⟨⟨r, s₁⟩, hrun, he⟩ := h
    cases r with
    | error fault => cases he
    | ok scope =>
      cases he
      obtain ⟨added, hadded, hplaced⟩ :=
        (Scope.places_playFrom hrun).trans scope.places_settleVoices
      intro remark hmem
      change remark ∈ scope.settleVoices.remarks at hmem
      rw [hadded] at hmem
      obtain hmem | hmem := List.mem_append.mp hmem
      · exact hremarks remark hmem
      · exact hplaced remark hmem

theorem Phrase.path_of_mem_written {phrase : Phrase} {remark : Remark}
    (h : remark ∈ phrase.written.2) :
    remark.path ≠ [] := by
  obtain ⟨place, mark, -, hindices, -⟩ := Phrase.marksIn_of_mem_written h
  intro hnil
  rw [Remark.indices, hnil] at hindices
  cases hindices

namespace Scope

/-- All that a call can do whose function is cautious: it is refused, changes the settings,
or adds one phrase. -/
inductive Called (stage : Stage) (player : Player) (scope : Scope) (s : Session) :
    Scope → Session → Prop
  | refused (finding : Finding) : Called stage player scope s (scope.remark finding) s
  | set (settings : Settings) : Called stage player scope s { scope with settings } s
  | played (phrase : Phrase) (overrides : Overrides) (passage : Passage) (s₁ : Session)
      (h : outcome (player (scope.settings.override overrides) phrase.written.2 phrase.written.1)
        s = some (.ok passage, s₁)) :
      Called stage player scope s (scope.add stage passage s₁).1 (scope.add stage passage s₁).2

theorem called_of_answer (hend : player.EndsFatally) {name : String} {access : Access}
    {script : Script (Option Passage)} (hc : script.Cautious) {r : Except Fault (Option Passage)}
    {scope₁ : Scope} {s₁ : Session}
    (h : (answer stage player name access script scope).run s = some ((r, scope₁), s₁))
    (hok : (scope₁.receive stage s₁ name r).1 = .ok scope') :
    Called stage player scope s scope' (scope₁.receive stage s₁ name r).2 := by
  induction hc with
  | done =>
    cases h
    cases hok
    exact .set scope.settings
  | @fail fault hf =>
    cases h
    cases fault with
    | undefinedTheme => cases hf
    | setting | argument =>
      cases hok
      exact .refused _
  | settings _ ih => exact ih _ h
  | set settings =>
    cases h
    cases hok
    exact .set settings
  | @play phrase overrides next hnext =>
    rw [answer_play, playPhrase_full_run, Option.bind_eq_some_iff] at h
    obtain ⟨⟨played, s₂⟩, hplay, hrest⟩ := h
    dsimp only at hrest
    rw [hnext] at hrest
    cases played with
    | ok passage =>
      cases hrest
      cases hok
      exact .played phrase overrides passage _ hplay
    | error fault =>
      -- A passage ends with no fault that a call would turn into a remark.
      cases hrest
      have hfatal := hend _ _ _ _ _ _ hplay
      rw [not_fatal_of_receive hok] at hfatal
      cases hfatal

theorem called_of_outcome {depth : Nat} {name : String} {arguments : List Argument}
    {f : String × (String → List Value → Script (Option Passage))} (hmem : f ∈ Script.standard)
    (hf : stage.repertoire.functions.find? name = some { body := f.2 })
    (h : outcome (scope.playSymbol stage (playerOf stage depth) (.call name arguments)) s =
      some (.ok scope', s')) :
    Called stage (playerOf stage depth) scope s scope' s' := by
  cases hv : arguments.mapM Value.ofArgument with
  | error e =>
    rw [outcome_call_error _ _ _ _ hf hv] at h
    cases h
    exact .refused _
  | ok values =>
    rw [outcome_call _ _ _ _ hf hv, Option.map_eq_some_iff] at h
    obtain ⟨⟨⟨r, scope₁⟩, s₁⟩, hrun, he⟩ := h
    obtain ⟨hok, rfl⟩ := Prod.mk.inj he
    exact called_of_answer (playerOf_endsFatally stage depth)
      (Script.cautious_standard f hmem name values) hrun hok

/-- A call of a standard function that fails has no effect but the one remark that tells so. -/
theorem refused_call_changes_nothing {depth : Nat} {name : String} {arguments : List Argument}
    {f : String × (String → List Value → Script (Option Passage))} (hmem : f ∈ Script.standard)
    (hf : stage.repertoire.functions.find? name = some { body := f.2 })
    (h : outcome (scope.playSymbol stage (playerOf stage depth) (.call name arguments)) s =
      some (.ok scope', s'))
    {remark : Remark} (hremark : remark ∈ scope'.remarks.drop scope.remarks.length)
    (hplace : remark.path = [scope.place]) (hcall : remark.finding.isOfCall) :
    s' = s ∧ scope' = { scope with remarks := scope.remarks ++ [remark] } := by
  cases called_of_outcome hmem hf h with
  | refused finding =>
    have hadded : remark ∈ [Remark.located finding scope.place] := by
      simpa [Scope.remark] using hremark
    obtain rfl := List.mem_singleton.mp hadded
    exact ⟨rfl, rfl⟩
  | set settings => simp at hremark
  | played phrase overrides passage s₁ hplayed =>
    obtain ⟨bars, he, hbars⟩ := scope.remarks_absorb stage passage
    have hadded :
        remark ∈ bars ++ passage.remarks.map (·.within scope.place scope.progress.duration) := by
      change remark ∈ (scope.absorb stage passage).remarks.drop _ at hremark
      rwa [he, List.drop_left] at hremark
    obtain hbar | hinner := List.mem_append.mp hadded
    · have hmetric := (hbars remark hbar).2
      rw [Finding.isMetric_of_isOfCall hcall] at hmetric
      cases hmetric
    -- What is remarked inside the phrase lies deeper than the call.
    · obtain ⟨inner, hin, rfl⟩ := List.mem_map.mp hinner
      have hdeep := path_of_mem_playerOf hplayed (fun _ ↦ Phrase.path_of_mem_written) inner hin
      exact absurd (List.cons.inj hplace).2 hdeep

namespace PastEnd

def underWay : Scope where
  settings := {}
  progress := { index := 3, barFirst := 2, barCount := 1, duration := 1.5, beatCount := 2 }
  remarks := [.located (.barLength 4 2 1.5) ⟨1, 2⟩]
  events := [0]
  marks := ∅
  traceStart := 0
  nested := false

def session : Session where
  trace := [[⟨0, 1, false⟩]]
  pending := [⟨0, some 0, 1⟩]
  tieLeft := true
  active := ["theme"]
  events := #[⟨some 0, 1, 1.5, 1.5, 2, 0, 0⟩]

def call : Symbol := .call "Stac" [.number 0.5, .number 6]

def remark : Remark :=
  .located (.function "Stac" (Fault.argument "Stac" (.staccatoPastEnd 6)).message) underWay.place

end PastEnd

theorem refused_call_changes_nothing_past_end : ∃ scope' s',
    outcome (PastEnd.underWay.playSymbol ⟨.standard, ∅⟩ (playerOf ⟨.standard, ∅⟩ 1) PastEnd.call)
      PastEnd.session = some (.ok scope', s') ∧
    s' = PastEnd.session ∧
      scope' = { PastEnd.underWay with
        remarks := PastEnd.underWay.remarks ++ [PastEnd.remark] } := by
  have hrun :
      (outcome (PastEnd.underWay.playSymbol ⟨.standard, ∅⟩ (playerOf ⟨.standard, ∅⟩ 1) PastEnd.call)
        PastEnd.session).map (fun x ↦ x.1.map (·.remarks.drop 1)) =
        some (.ok [PastEnd.remark]) := by
    decide +kernel
  obtain ⟨⟨fault | scope', s'⟩, hplayed, hremarks⟩ := Option.map_eq_some_iff.mp hrun
  · cases hremarks
  · replace hremarks : scope'.remarks.drop 1 = [PastEnd.remark] := Except.ok.inj hremarks
    have hmem : ("Stac", Script.staccato) ∈ Script.standard := by simp [Script.standard]
    have hf : Repertoire.standard.functions.find? "Stac" = some { body := Script.staccato } := by
      rfl
    have hremark : PastEnd.remark ∈ scope'.remarks.drop PastEnd.underWay.remarks.length := by
      rw [show PastEnd.underWay.remarks.length = 1 from rfl, hremarks]
      exact List.mem_singleton_self _
    exact ⟨scope', s', hplayed, refused_call_changes_nothing hmem hf hplayed hremark rfl rfl⟩

end Scope

end Rendition
