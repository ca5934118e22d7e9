import Rendition.Proofs.Play.Ending
import Rendition.Proofs.Play.Nesting
import Rendition.Proofs.Score.Parts

namespace Rendition

def Fault.Undefined (themes : Table String (List Symbol)) (fault : Fault) : Prop :=
  ∃ name bar index, fault = .undefinedTheme name bar index ∧ themes.find? name = none

namespace Script

variable {α : Type}

/-- The faults that a function has been told of once a passage that it plays has ended. -/
def hear (heard : List Fault) : Except Fault Passage → List Fault
  | .ok _ => heard
  | .error fault => fault :: heard

/-- A script that fails only with faults that are not fatal and with those that it has heard of. -/
inductive Relays : List Fault → Script α → Prop
  | done {heard : List Fault} {answer : α} : Relays heard (.done answer)
  | fail {heard : List Fault} {fault : Fault} (h : fault.isFatal = false ∨ fault ∈ heard) :
      Relays heard (.fail fault)
  | play {heard : List Fault} {phrase : Phrase} {overrides : Overrides} {access : Access}
      {next : Except Fault Passage → Script α} (h : ∀ r, Relays (hear heard r) (next r)) :
      Relays heard (.play phrase overrides access next)
  | join {heard : List Fault} {passages : List Passage} {next : Passage → Script α}
      (h : ∀ passage, Relays heard (next passage)) : Relays heard (.join passages next)
  | remark {heard : List Fault} {message : String} {next : Script α} (h : Relays heard next) :
      Relays heard (.remark message next)
  | settings {heard : List Fault} {next : Settings → Script α} (h : ∀ s, Relays heard (next s)) :
      Relays heard (.settings next)
  | setSettings {heard : List Fault} {s : Settings} {next : Script α} (h : Relays heard next) :
      Relays heard (.setSettings s next)
  | trace {heard : List Fault} {next : Option Trace → Script α} (h : ∀ t, Relays heard (next t)) :
      Relays heard (.trace next)
  | record {heard : List Fault} {entry : List Tone} {next : Bool → Script α} (h : ∀ b,
      Relays heard (next b)) :
      Relays heard (.record entry next)
  | progress {heard : List Fault} {next : Progress → Script α} (h : ∀ p, Relays heard (next p)) :
      Relays heard (.progress next)

theorem Modest.relays {phrases : List Phrase} {script : Script (Option Passage)}
    (h : script.Modest phrases) :
    script.Relays [] := by
  induction h with
  | done => exact .done
  | fail hf => exact .fail (.inl hf)
  | settings _ ih => exact .settings ih
  | setSettings _ ih => exact .setSettings ih
  | play hp hnext =>
    refine .play ?_
    intro r
    rw [hnext]
    cases r with
    | ok passage => exact .done
    | error fault => exact .fail (.inr List.mem_cons_self)

end Script

namespace Repertoire

/-- The functions that scores find fail only with faults that are not fatal and with those of
passages that they play. -/
def Relays (r : Repertoire) : Prop :=
  ∀ name function, r.functions.find? name = some function →
    ∀ called values, (function.body called values).Relays []

theorem OnlyStandard.relays {r : Repertoire} (hr : r.OnlyStandard) : r.Relays := by
  intro name function h called values
  obtain ⟨f, hmem, -, rfl⟩ := hr name function h
  exact (Script.modest_standard f hmem called values).relays

end Repertoire

variable {stage : Stage} {player : Player}

namespace Scope

inductive Failure (stage : Stage) (player : Player) (scope : Scope) (s : Session) :
    Symbol → Fault → Prop
  | undefined (name : String) (h : stage.repertoire.themes.find? name = none) :
      Failure stage player scope s (.theme name)
        (.undefinedTheme name scope.progress.barCount scope.progress.index)
  | phrase (times : Int32) (content : List Symbol) {fault : Fault} (s₁ : Session)
      (h : outcome (scope.playRepeated player content times.toInt) s = some (.error fault, s₁)) :
      Failure stage player scope s (.phrase times content) fault
  | theme (name : String) (content : List Symbol)
      (hc : stage.repertoire.themes.find? name = some content) {fault : Fault} (s₁ : Session)
      (h : outcome (scope.playRepeated player content (-1)) (s.entering name) =
        some (.error fault, s₁)) :
      Failure stage player scope s (.theme name) fault
  | call (name : String) (arguments : List Argument) (function : Function) (values : List Value)
      (hf : stage.repertoire.functions.find? name = some function)
      (hv : arguments.mapM Value.ofArgument = .ok values) {fault : Fault} (hfatal : fault.isFatal)
      (scope₁ : Scope) (s₁ : Session)
      (h : (answer stage player name function.access (function.body name values) scope).run s =
        some ((.error fault, scope₁), s₁)) :
      Failure stage player scope s (.call name arguments) fault

theorem Step.failure {scope : Scope} {s : Session} {symbol : Symbol} {fault : Fault} {s' : Session}
    (h : Step stage player scope s symbol (.error fault) s') :
    Failure stage player scope s symbol fault := by
  generalize hr : Except.error fault = r at h
  cases h with
  | undefined name h =>
    obtain rfl := Except.error.inj hr
    exact .undefined name h
  | phrase times content r s₁ h =>
    cases r with
    | ok passage => cases hr
    | error fault' =>
      obtain rfl := Except.error.inj hr
      exact .phrase times content s₁ h
  | theme name content hc ha r s₁ h =>
    cases r with
    | ok passage => cases hr
    | error fault' =>
      obtain rfl := Except.error.inj hr
      exact .theme name content hc s₁ h
  | call name arguments function values hf hv r scope₁ s₁ h =>
    match r, hr with
    | .error (.undefinedTheme title bar index), hr =>
      obtain rfl := Except.error.inj hr
      exact .call name arguments function values hf hv rfl scope₁ s₁ h
    | .ok none, hr | .ok (some _), hr | .error (.setting ..), hr | .error (.argument ..), hr =>
      cases hr
  | _ => cases hr

end Scope

section Relays

def Player.EndsUndefined (themes : Table String (List Symbol)) (player : Player) : Prop :=
  ∀ settings remarks symbols s fault s', outcome (player settings remarks symbols) s =
    some (.error fault, s') →
    fault.Undefined themes

variable {themes : Table String (List Symbol)} {scope : Scope} {s : Session} {fault : Fault}

theorem Scope.answer_undefined {name : String} {access : Access} {heard : List Fault}
    {script : Script (Option Passage)} {scope' : Scope} {s' : Session}
    (hplayer : player.EndsUndefined themes) (hscript : script.Relays heard)
    (hheard : ∀ fault ∈ heard, fault.Undefined themes)
    (h : (answer stage player name access script scope).run s = some ((.error fault, scope'), s')) :
    fault.isFatal = false ∨ fault.Undefined themes := by
  induction hscript generalizing scope s with
  | done => cases h
  | fail hf =>
    cases h
    exact hf.imp_right (hheard _)
  | @play heard phrase overrides inner next _ ih =>
    rw [answer_play, Option.bind_eq_some_iff] at h
    obtain ⟨⟨r, s₁⟩, hplay, hrest⟩ := h
    refine ih r ?_ hrest
    cases r with
    | ok passage => exact hheard
    | error fault' =>
      rw [playPhrase_run] at hplay
      obtain ⟨⟨r', s₂⟩, hrun, he⟩ := Option.map_eq_some_iff.mp hplay
      obtain rfl : r' = .error fault' := congrArg Prod.fst he
      exact List.forall_mem_cons.mpr ⟨hplayer _ _ _ _ _ _ hrun, hheard⟩
  | join _ ih => exact ih _ hheard h
  | remark _ ih => exact ih hheard h
  | settings _ ih => exact ih _ hheard h
  | setSettings _ ih => exact ih hheard h
  | trace _ ih => exact ih _ hheard h
  | record _ ih =>
    rw [answer_record] at h
    exact ih _ hheard h
  | progress _ ih => exact ih _ hheard h

variable (hr : stage.repertoire.Relays)
include hr

theorem Scope.Failure.undefined_of_relays {symbol : Symbol}
    (hplayer : player.EndsUndefined stage.repertoire.themes)
    (h : Failure stage player scope s symbol fault) : fault.Undefined stage.repertoire.themes := by
  cases h with
  | undefined name h => exact ⟨name, _, _, rfl, h⟩
  | phrase times content s₁ h => exact hplayer _ _ _ _ _ _ h
  | theme name content hc s₁ h => exact hplayer _ _ _ _ _ _ h
  | call name arguments function values hf hv hfatal scope₁ s₁ h =>
    obtain hnot | hundefined := answer_undefined hplayer (hr name function hf name values) nofun h
    · exact absurd hfatal (ne_true_of_eq_false hnot)
    · exact hundefined

theorem Scope.playFrom_undefined (hplayer : player.EndsUndefined stage.repertoire.themes)
    {index : Nat} {symbols : List Symbol} {s' : Session}
    (h : outcome (scope.playFrom stage player index symbols) s = some (.error fault, s')) :
    fault.Undefined stage.repertoire.themes := by
  obtain ⟨scope', hok, -⟩ | ⟨fault', he, hundefined⟩ := playFrom_invariant (I := fun _ _ ↦ True)
    (E := fun fault _ ↦ fault.Undefined stage.repertoire.themes) (fun _ _ _ _ _ _ _ _ ↦ trivial)
    (fun _ _ _ _ _ _ _ hs ↦ (step_of_outcome hs).failure.undefined_of_relays hr hplayer) trivial h
  · cases hok
  · obtain rfl := Except.error.inj he
    exact hundefined

theorem playerOf_endsUndefined (depth : Nat) :
    (playerOf stage depth).EndsUndefined stage.repertoire.themes := by
  intro settings remarks symbols s fault s' h
  refine playerOf_induction (P := fun _ _ _ _ r _ ↦ ∀ fault, r = .error fault →
    fault.Undefined stage.repertoire.themes) ?_ depth h fault rfl
  intro depth ih settings remarks symbols s r s' hrun fault he
  cases r with
  | ok scope => cases he
  | error fault' =>
    obtain rfl := Except.error.inj he
    exact Scope.playFrom_undefined hr (fun _ _ _ _ _ _ h ↦ ih _ _ _ _ _ _ h _ rfl) hrun

end Relays

namespace Symbol

def IsKnown (names : List String) : Symbol → Prop
  | .theme name => name ∈ names
  | _ => True

instance (names : List String) : DecidablePred (IsKnown names)
  | .theme name => inferInstanceAs (Decidable (name ∈ names))
  | .note _ | .call .. | .phrase .. | .tie | .barLine _ | .clef _ | .comment _ | .space
  | .marking _ => .isTrue trivial

/-- All themes that the symbols refer to, however deep, are among those named. -/
abbrev RefersTo (names : List String) (symbols : List Symbol) : Prop :=
  Throughout (IsKnown names) symbols

theorem RefersTo.mono {names names' : List String} {symbols : List Symbol}
    (h : RefersTo names symbols) (hn : names ⊆ names') : RefersTo names' symbols := by
  refine Throughout.mono h ?_
  intro symbol hs
  cases symbol with
  | theme name => exact hn hs
  | _ => trivial

end Symbol

def Repertoire.Closed (r : Repertoire) : Prop :=
  ∀ name content, r.themes.find? name = some content → Symbol.RefersTo r.themes.keys content

theorem Table.find?_ne_none {κ α : Type} [DecidableEq κ] {t : Table κ α} {k : κ} (h : k ∈ t.keys) :
    t.find? k ≠ none := by
  have hlookup : ∀ entries : List (κ × α), k ∈ entries.map Prod.fst → lookup k entries ≠ none := by
    intro entries hk
    induction entries with
    | nil => cases hk
    | cons entry rest ih =>
      rw [lookup]
      split
      · exact Option.some_ne_none _
      · next hne => exact ih ((List.mem_cons.mp hk).resolve_left hne)
  exact hlookup t.entries h

section Closed

def Player.Completes (names : List String) (player : Player) : Prop :=
  ∀ settings remarks symbols s fault s', Symbol.RefersTo names symbols →
    outcome (player settings remarks symbols) s ≠ some (.error fault, s')

variable {scope : Scope} {s : Session} {fault : Fault} (hr : stage.repertoire.OnlyStandard)
  (hc : stage.repertoire.Closed) (hplayer : player.Completes stage.repertoire.themes.keys)
include hr hc hplayer

theorem Scope.not_failure_of_closed {symbol : Symbol}
    (hs : ∀ part ∈ symbol.parts, part.IsKnown stage.repertoire.themes.keys) :
    ¬ Failure stage player scope s symbol fault := by
  intro h
  cases h with
  | undefined name h => exact Table.find?_ne_none (hs _ (Symbol.mem_parts_self _)) h
  | phrase times content s₁ h =>
    exact hplayer _ _ _ _ _ _ ((Symbol.throughout_phrase hs).unfold trivial _) h
  | theme name content hname s₁ h =>
    rw [playRepeated] at h
    exact hplayer _ _ _ _ _ _ ((hc name content hname).unfold trivial (-1)) h
  | call name arguments function values hf hv hfatal scope₁ s₁ h =>
    -- A standard function plays only phrases that stand in its call.
    obtain ⟨-, hmodestly⟩ := modestly_of_call hr hf h
    generalize hx : Except.error fault = x at hmodestly
    cases hmodestly with
    | done => cases hx
    | fail hnot =>
      obtain rfl := Except.error.inj hx
      exact absurd hfatal (ne_true_of_eq_false hnot)
    | @play phrase overrides r s' hp hrun =>
      cases r with
      | ok passage => cases hx
      | error fault' =>
        exact hplayer _ _ _ _ _ _ (Phrase.throughout_written trivial
          (Value.throughout_call hv hs hp)) hrun

theorem Scope.playFrom_ne_error {index : Nat} {symbols : List Symbol} {s' : Session}
    (hs : Symbol.RefersTo stage.repertoire.themes.keys symbols) :
    outcome (scope.playFrom stage player index symbols) s ≠ some (.error fault, s') := by
  induction symbols generalizing index scope s with
  | nil => exact nofun
  | cons symbol rest ih =>
    obtain ⟨hsymbol, hrest⟩ := Symbol.throughout_cons.mp hs
    rw [outcome_playFrom_cons, Ne, andThen_eq_some]
    rintro (⟨fault', h, -⟩ | ⟨scope₁, s₁, -, h⟩)
    · exact not_failure_of_closed hr hc hplayer hsymbol (step_of_outcome h).failure
    · exact ih hrest h

omit hplayer in
theorem playerOf_completes (depth : Nat) :
    (playerOf stage depth).Completes stage.repertoire.themes.keys := by
  intro settings remarks symbols s fault s' hs h
  refine playerOf_induction (P := fun _ _ symbols _ r _ ↦
    Symbol.RefersTo stage.repertoire.themes.keys symbols →
    ∀ fault, r ≠ .error fault) ?_ depth h hs fault rfl
  intro depth ih settings remarks symbols s r s' hrun hs fault
  cases r with
  | ok scope => exact nofun
  | error fault' =>
    exact absurd hrun (Scope.playFrom_ne_error hr hc (fun _ _ _ _ _ _ hs h ↦
      ih _ _ _ _ _ _ h hs _ rfl) hs)

end Closed

section Perform

variable {r : Repertoire} {settings : Settings} {instrument : Instrument} {id : String}
  {name : Option String} {content : List Symbol}

theorem perform_undefined (hr : r.Relays) {fault : Fault}
    (h : perform r settings instrument id name content = some (.error fault)) :
    fault.Undefined r.themes := by
  rw [perform_eq, outcome_playTrack, Option.map_map] at h
  obtain ⟨⟨x, s'⟩, hrun, he⟩ := Option.map_eq_some_iff.mp h
  cases x with
  | ok scope => cases he
  | error fault' =>
    obtain rfl : fault' = fault := Except.error.inj he
    have hstage : (r.stage instrument).repertoire.Relays := hr
    exact Scope.playFrom_undefined hstage (playerOf_endsUndefined hstage _) hrun

theorem exists_performance_of_closed (hr : r.OnlyStandard) (hc : r.Closed)
    (hs : Symbol.RefersTo r.themes.keys (instrument.opening ++ content)) :
    ∃ performance, perform r settings instrument id name content = some (.ok performance) := by
  have hstandard : (r.stage instrument).repertoire.OnlyStandard := hr
  have hclosed : (r.stage instrument).repertoire.Closed := hc
  obtain ⟨⟨x, s'⟩, hx⟩ :=
    playTrack_ends hstandard settings (instrument.opening ++ content) (.opening name)
  cases x with
  | ok played =>
    rw [perform_eq, hx]
    exact ⟨_, rfl⟩
  | error fault =>
    rw [outcome_playTrack] at hx
    obtain ⟨⟨x, s'⟩, hrun, he⟩ := Option.map_eq_some_iff.mp hx
    cases x with
    | ok scope => cases he
    | error fault' =>
      exact absurd hrun (Scope.playFrom_ne_error hstandard hclosed
        (playerOf_completes hstandard hclosed _) hs)

end Perform

end Rendition
