import Rendition.Proofs.Play.Outcome

namespace Rendition

theorem of_drop_eq_cons {α : Type} {xs rest : List α} {x : α} {k : Nat}
    (h : xs.drop k = x :: rest) :
    xs[k]? = some x ∧ xs.drop (k + 1) = rest ∧ xs.take (k + 1) = xs.take k ++ [x] := by
  have hget : xs[k]? = some x := by rw [← List.head?_drop, h, List.head?_cons]
  refine ⟨hget, ?_, ?_⟩
  · rw [← List.tail_drop, h, List.tail_cons]
  · rw [List.take_add_one, hget, Option.toList_some]

namespace Scope

variable {stage : Stage} {player : Player}

/-- All that playing a symbol can do: the answer and the session it leaves. -/
inductive Step (stage : Stage) (player : Player) (scope : Scope) (s : Session) :
    Symbol → Except Fault Scope → Session → Prop
  | note (note : Note) : Step stage player scope s (.note note) (.ok (scope.noted stage s note).1)
      (scope.noted stage s note).2
  | tie : Step stage player scope s .tie (.ok scope) { s with tieLeft := true }
  | barLine (bar : BarLine) :
      Step stage player scope s (.barLine bar) (.ok (scope.playBarLine bar)) s
  | marking (kind : String) :
      Step stage player scope s (.marking kind) (.ok (scope.playMarking stage kind)) s
  | inert (symbol : Symbol) (hs : symbol.isInert) : Step stage player scope s symbol (.ok scope) s
  | phrase (times : Int32) (content : List Symbol) (r : Except Fault Passage) (s₁ : Session)
      (h : outcome (scope.playRepeated player content times.toInt) s = some (r, s₁)) :
      Step stage player scope s (.phrase times content) (scope.take stage s₁ r).1
      (scope.take stage s₁ r).2
  | undefined (name : String) (h : stage.repertoire.themes.find? name = none) :
      Step stage player scope s (.theme name)
        (.error (.undefinedTheme name scope.progress.barCount scope.progress.index)) s
  | active (name : String) (content : List Symbol)
      (h : stage.repertoire.themes.find? name = some content) (ha : name ∈ s.active) :
      Step stage player scope s (.theme name) (.ok (scope.remark (.recursiveTrack name))) s
  | theme (name : String) (content : List Symbol) (hc : stage.repertoire.themes.find? name =
      some content) (ha : name ∉ s.active) (r : Except Fault Passage) (s₁ : Session)
      (h : outcome (scope.playRepeated player content (-1)) (s.entering name) = some (r, s₁)) :
      Step stage player scope s (.theme name) (scope.take stage s₁.leaving r).1
      (scope.take stage s₁.leaving r).2
  | unknown (name : String) (arguments : List Argument)
      (h : stage.repertoire.functions.find? name = none) :
      Step stage player scope s (.call name arguments)
      (.ok (scope.remark (.unknownFunction name))) s
  | formula (name : String) (arguments : List Argument) (function : Function) (source : String)
      (fault : Formula.Fault) (hf : stage.repertoire.functions.find? name = some function)
      (h : arguments.mapM Value.ofArgument = .error (source, fault)) :
      Step stage player scope s (.call name arguments)
      (.ok (scope.remark (.badExpression source fault.message))) s
  | call (name : String) (arguments : List Argument) (function : Function) (values : List Value)
      (hf : stage.repertoire.functions.find? name = some function)
      (hv : arguments.mapM Value.ofArgument = .ok values)
      (r : Except Fault (Option Passage)) (scope₁ : Scope) (s₁ : Session)
      (h : (answer stage player name function.access (function.body name values) scope).run s =
        some ((r, scope₁), s₁)) :
      Step stage player scope s (.call name arguments) (scope₁.receive stage s₁ name r).1
        (scope₁.receive stage s₁ name r).2

theorem step_of_outcome {scope : Scope} {s : Session} {symbol : Symbol} {r : Except Fault Scope}
    {s' : Session} (h : outcome (scope.playSymbol stage player symbol) s = some (r, s')) :
    Step stage player scope s symbol r s' := by
  cases symbol with
  | note note =>
    rw [outcome_note] at h
    obtain ⟨rfl, rfl⟩ := Prod.mk.inj (Option.some.inj h)
    exact .note note
  | call name arguments =>
    cases hf : stage.repertoire.functions.find? name with
    | none =>
      rw [outcome_call_none _ _ _ _ _ hf] at h
      cases h
      exact .unknown name arguments hf
    | some function =>
      cases hv : arguments.mapM Value.ofArgument with
      | error e =>
        obtain ⟨source, fault⟩ := e
        rw [outcome_call_error _ _ _ _ hf hv] at h
        cases h
        exact .formula name arguments function source fault hf hv
      | ok values =>
        rw [outcome_call _ _ _ _ hf hv] at h
        obtain ⟨⟨⟨r₁, scope₁⟩, s₁⟩, hr, he⟩ := Option.map_eq_some_iff.mp h
        obtain rfl : _ = r := congrArg Prod.fst he
        obtain rfl : _ = s' := congrArg Prod.snd he
        exact .call name arguments function values hf hv r₁ scope₁ s₁ hr
  | phrase times content =>
    rw [outcome_phrase] at h
    obtain ⟨⟨r₁, s₁⟩, hr, he⟩ := Option.map_eq_some_iff.mp h
    obtain rfl : _ = r := congrArg Prod.fst he
    obtain rfl : _ = s' := congrArg Prod.snd he
    exact .phrase times content r₁ s₁ hr
  | theme name =>
    cases hc : stage.repertoire.themes.find? name with
    | none =>
      rw [outcome_theme_none _ _ _ _ hc] at h
      cases h
      exact .undefined name hc
    | some content =>
      by_cases ha : name ∈ s.active
      · rw [outcome_theme_active _ _ _ hc ha] at h
        cases h
        exact .active name content hc ha
      · rw [outcome_theme _ _ _ hc ha] at h
        obtain ⟨⟨r₁, s₁⟩, hr, he⟩ := Option.map_eq_some_iff.mp h
        obtain rfl : _ = r := congrArg Prod.fst he
        obtain rfl : _ = s' := congrArg Prod.snd he
        exact .theme name content hc ha r₁ s₁ hr
  | tie => cases h; exact .tie
  | barLine bar => cases h; exact .barLine bar
  | marking kind => cases h; exact .marking kind
  | clef name => cases h; exact .inert _ rfl
  | comment text => cases h; exact .inert _ rfl
  | space => cases h; exact .inert _ rfl

/-- What every symbol keeps, symbols one after another keep; `E` is what holds where a fault ends
them. -/
theorem playFrom_invariant {I : Scope → Session → Prop} {E : Fault → Session → Prop}
    (hok : ∀ index symbol scope s scope' s', I scope s →
      outcome ((scope.atIndex index).playSymbol stage player symbol) s = some (.ok scope', s') →
      I scope' s')
    (herror : ∀ index symbol scope s fault s', I scope s →
      outcome ((scope.atIndex index).playSymbol stage player symbol) s = some
      (.error fault, s') → E fault s')
    {index : Nat} {symbols : List Symbol} {scope : Scope} {s : Session} {r : Except Fault Scope}
    {s' : Session} (hi : I scope s)
    (h : outcome (scope.playFrom stage player index symbols) s = some (r, s')) :
    (∃ scope', r = .ok scope' ∧ I scope' s') ∨ ∃ fault, r = .error fault ∧ E fault s' := by
  induction symbols generalizing index scope s with
  | nil =>
    cases h
    exact .inl ⟨scope, rfl, hi⟩
  | cons symbol rest ih =>
    rw [outcome_playFrom_cons, andThen_eq_some] at h
    obtain ⟨fault, hf, rfl⟩ | ⟨scope₁, s₁, hs, hrest⟩ := h
    · exact .inr ⟨fault, rfl, herror index symbol scope s fault s' hi hf⟩
    · exact ih (hok index symbol scope s scope₁ s₁ hi hs) hrest

end Scope

/-- What holds of passages whose inner ones it holds of holds of passages of every depth. -/
theorem playerOf_induction {stage : Stage}
    {P : Settings → List Remark → List Symbol → Session → Except Fault Passage → Session → Prop}
    (step : ∀ depth,
      (∀ settings remarks symbols s r s', outcome (playerOf stage depth settings remarks symbols)
        s = some (r, s') →
        P settings remarks symbols s r s') →
      ∀ settings remarks symbols s r s',
        outcome ((Scope.begin stage s settings remarks).playFrom stage (playerOf stage depth) 0
          symbols) s = some (r, s') →
        P settings remarks symbols s (r.map (·.conclude s')) s')
    (depth : Nat) {settings : Settings} {remarks : List Remark} {symbols : List Symbol}
    {s : Session} {r : Except Fault Passage} {s' : Session}
    (h : outcome (playerOf stage depth settings remarks symbols) s = some (r, s')) :
    P settings remarks symbols s r s' := by
  induction depth generalizing settings remarks symbols s r s' with
  | zero => cases h
  | succ depth ih =>
    rw [outcome_playerOf] at h
    obtain ⟨⟨r₁, s₁⟩, hrun, he⟩ := Option.map_eq_some_iff.mp h
    cases he
    exact step depth (fun settings remarks symbols s r s' ↦ ih) settings remarks symbols
      s r₁ s₁ hrun

def Player.EndsFatally (player : Player) : Prop :=
  ∀ settings remarks symbols s fault s', outcome (player settings remarks symbols) s =
    some (.error fault, s') →
    fault.isFatal

theorem Scope.Step.fatal {stage : Stage} {player : Player} {scope : Scope} {s : Session}
    {symbol : Symbol} {fault : Fault} {s' : Session} (hplayer : player.EndsFatally)
    (h : Step stage player scope s symbol (.error fault) s') : fault.isFatal := by
  generalize hr : Except.error fault = r at h
  cases h with
  | undefined =>
    obtain rfl := Except.error.inj hr
    rfl
  | phrase times content r s₁ h =>
    cases r with
    | ok passage => cases hr
    | error fault' =>
      obtain rfl := Except.error.inj hr
      exact hplayer _ _ _ _ _ _ h
  | theme name content hc ha r s₁ h =>
    cases r with
    | ok passage => cases hr
    | error fault' =>
      obtain rfl := Except.error.inj hr
      exact hplayer _ _ _ _ _ _ h
  | call name arguments function values hf hv r scope₁ s₁ h =>
    match r, hr with
    | .error (.undefinedTheme title bar index), hr =>
      obtain rfl := Except.error.inj hr
      rfl
    | .ok none, hr | .ok (some _), hr | .error (.setting ..), hr | .error (.argument ..), hr =>
      cases hr
  | _ => cases hr

theorem Scope.playFrom_fatal {stage : Stage} {player : Player} {scope : Scope} {s : Session}
    {index : Nat} {symbols : List Symbol} {fault : Fault} {s' : Session}
    (hplayer : player.EndsFatally)
    (h : outcome (scope.playFrom stage player index symbols) s =
      some (.error fault, s')) : fault.isFatal := by
  obtain ⟨scope', hok, -⟩ | ⟨fault', he, hfatal⟩ := playFrom_invariant (I := fun _ _ ↦ True)
    (E := fun fault _ ↦ fault.isFatal) (fun _ _ _ _ _ _ _ _ ↦ trivial)
    (fun _ _ _ _ _ _ _ hs ↦ (step_of_outcome hs).fatal hplayer) trivial h
  · cases hok
  · obtain rfl := Except.error.inj he
    exact hfatal

theorem playerOf_endsFatally (stage : Stage) (depth : Nat) :
    (playerOf stage depth).EndsFatally := by
  intro settings remarks symbols s fault s' h
  refine playerOf_induction (P := fun _ _ _ _ r _ ↦ ∀ fault, r = .error fault → fault.isFatal)
    (fun depth ih settings remarks symbols s r s' hrun fault he ↦ ?_) depth h fault rfl
  cases r with
  | ok scope => cases he
  | error fault' =>
    obtain rfl := Except.error.inj he
    exact Scope.playFrom_fatal (fun _ _ _ _ _ _ h ↦ ih _ _ _ _ _ _ h _ rfl) hrun

end Rendition
