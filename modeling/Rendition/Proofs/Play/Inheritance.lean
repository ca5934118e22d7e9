import Rendition.Proofs.Play.Answering
import Rendition.Proofs.Play.Descent

namespace Rendition

namespace Script

def setters : List String := (standard.map Prod.fst).filter (· ∉ players)

/-- What may be left of the body of a standard function: once it has played, it has only
its answer to give. -/
def Underway (name : String) (values : List Value) (s : Settings)
    (script : Script (Option Passage)) : Prop :=
  script.Orderly name values s ∨ ∃ r, script = ofExcept r

end Script

def Symbol.isSetter : Symbol → Bool
  | .call name _ => name ∈ Script.setters
  | _ => false

/-- The setters among the symbols, played alone in whatever passage has these settings, turn them
into `settings'` and do nothing to what passages share. -/
def Stage.SetsAlone (stage : Stage) (symbols : List Symbol)
    (settings settings' : Settings) : Prop :=
  ∀ (player : Player) index (scope : Scope) s, scope.settings = settings →
    ∃ scope', outcome (scope.playFrom stage player index (symbols.filter Symbol.isSetter)) s =
    some (.ok scope', s) ∧
      scope'.settings = settings'

/-- The settings that the passage of a symbol begins with, where others are in force at the
symbol. -/
inductive Symbol.HandsDown (settings : Settings) : Symbol → Settings → Prop
  | phrase (times : Int32) (content : List Symbol) :
      HandsDown settings (.phrase times content) settings
  | theme (name : String) : HandsDown settings (.theme name) settings
  | call {name : String} {arguments : List Argument} {values : List Value} {phrase : Phrase}
      {overrides : Overrides} (hv : arguments.mapM Value.ofArgument = .ok values)
      (h : Script.Lends values settings name phrase overrides) :
      HandsDown settings (.call name arguments) (settings.override overrides)

variable {stage : Stage} {player : Player} {scope scope' : Scope} {s s' : Session}
  {xs ys : List Symbol} {symbol : Symbol} {σ τ υ : Settings}

namespace Stage.SetsAlone

theorem nil : stage.SetsAlone [] σ σ := fun _ _ scope _ hs ↦ ⟨scope, rfl, hs⟩

theorem append (hxs : stage.SetsAlone xs σ τ) (hys : stage.SetsAlone ys τ υ) :
    stage.SetsAlone (xs ++ ys) σ υ := by
  intro player index scope s hs
  obtain ⟨scope₁, hrun, hs₁⟩ := hxs player index scope s hs
  obtain ⟨scope₂, hrun', hs₂⟩ := hys player _ scope₁ s hs₁
  refine ⟨scope₂, ?_, hs₂⟩
  rw [List.filter_append, Scope.outcome_playFrom_append, hrun]
  exact hrun'

theorem of_not_isSetter (h : symbol.isSetter = false) : stage.SetsAlone [symbol] σ σ := by
  intro player index scope s hs
  rw [List.filter_cons, h]
  exact ⟨scope, rfl, hs⟩

theorem of_isSetter (h : symbol.isSetter)
    (hrun : ∀ (player : Player) (scope : Scope) s, scope.settings = σ →
    ∃ scope', outcome (scope.playSymbol stage player symbol) s = some
    (.ok scope', s) ∧ scope'.settings = τ) :
    stage.SetsAlone [symbol] σ τ := by
  intro player index scope s hs
  obtain ⟨scope', hsymbol, hs'⟩ := hrun player (scope.atIndex index) s hs
  refine ⟨scope', ?_, hs'⟩
  rw [List.filter_cons, h, if_pos rfl, List.filter_nil, Scope.outcome_playFrom_cons, hsymbol]
  rfl

end Stage.SetsAlone

namespace Scope

variable {name : String} {access : Access} {values : List Value} {script : Script (Option Passage)}

theorem answer_setter (h : script.Orderly name values σ) (hname : name ∉ Script.players) :
    ∃ r τ, (r = .ok none ∨ ∃ fault, r = .error fault ∧ fault.isFatal = false) ∧
      ∀ stage player access (scope : Scope) s, scope.settings = σ →
        (answer stage player name access script scope).run s =
          some ((r, { scope with settings := τ }), s) := by
  induction h with
  | @done σ => exact ⟨.ok none, σ, .inl rfl, by rintro stage player access scope s rfl; rfl⟩
  | @fail σ fault hf =>
    exact ⟨.error fault, σ, .inr ⟨fault, rfl, hf⟩, by rintro stage player access scope s rfl; rfl⟩
  | settings _ ih =>
    obtain ⟨r, τ, hr, hrun⟩ := ih
    refine ⟨r, τ, hr, ?_⟩
    rintro stage player access scope s rfl
    exact hrun stage player access scope s rfl
  | setSettings _ _ _ ih =>
    obtain ⟨r, τ, hr, hrun⟩ := ih
    exact ⟨r, τ, hr, fun stage player access scope s _ ↦ hrun stage player access _ s rfl⟩
  | play hlends => exact absurd hlends.mem_players hname

theorem receive_quiet {r : Except Fault (Option Passage)}
    (hr : r = .ok none ∨ ∃ fault, r = .error fault ∧ fault.isFatal = false) :
    ∃ scope', scope.receive stage s name r = (.ok scope', s) ∧
      scope'.settings = scope.settings := by
  obtain rfl | ⟨fault, rfl, hf⟩ := hr
  · exact ⟨scope, rfl, rfl⟩
  · cases fault with
    | undefinedTheme => cases hf
    | setting | argument => exact ⟨_, rfl, rfl⟩

theorem settings_of_call (hr : stage.repertoire.OnlyStandard) {arguments : List Argument}
    (hname : name ∉ Script.setters)
    (h : outcome (scope.playSymbol stage player (.call name arguments)) s = some (.ok scope', s')) :
    scope'.settings = scope.settings := by
  have hstep := step_of_outcome h
  generalize hres : Except.ok scope' = r at hstep
  cases hstep with
  | inert _ hs => cases hs
  | unknown | formula =>
    obtain rfl := Except.ok.inj hres
    rfl
  | call _ _ function values hf hv r scope₁ s₁ hrun =>
    rw [receive_settings hres.symm]
    refine (answered_of_call hr hf hrun).kept ?_
    obtain ⟨f, hmem, rfl, -⟩ := hr _ function hf
    by_contra hnot
    exact hname (List.mem_filter.mpr ⟨List.mem_map_of_mem hmem, decide_eq_true hnot⟩)

theorem exists_settings_of_setter {r : Repertoire} (hr : r.OnlyStandard)
    (hname : name ∈ Script.setters) (arguments : List Argument) (σ : Settings) :
    ∃ τ, ∀ (stage : Stage) (player : Player) (scope : Scope) s,
      stage.repertoire.functions = r.functions → scope.settings = σ →
        ∃ scope', outcome (scope.playSymbol stage player (.call name arguments)) s =
          some (.ok scope', s) ∧
          scope'.settings = τ := by
  have hplayer : name ∉ Script.players := of_decide_eq_true (List.mem_filter.mp hname).2
  cases hf : r.functions.find? name with
  | none =>
    refine ⟨σ, ?_⟩
    rintro stage player scope s hstage rfl
    exact ⟨_, outcome_call_none stage player scope s arguments (hstage ▸ hf), rfl⟩
  | some function =>
    cases hv : arguments.mapM Value.ofArgument with
    | error e =>
      refine ⟨σ, ?_⟩
      rintro stage player scope s hstage rfl
      exact ⟨_, outcome_call_error stage player scope s (hstage ▸ hf) hv, rfl⟩
    | ok values =>
      obtain ⟨f, hmem, rfl, rfl⟩ := hr _ function hf
      obtain ⟨r, τ, hquiet, hrun⟩ := answer_setter (Script.orderly_standard f hmem values σ) hplayer
      refine ⟨τ, ?_⟩
      intro stage player scope s hstage hs
      obtain ⟨scope', hreceive, hτ⟩ : ∃ scope', { scope with settings := τ }.receive stage s f.1 r =
          (.ok scope', s) ∧
          scope'.settings = τ := receive_quiet hquiet
      refine ⟨scope', ?_, hτ⟩
      rw [outcome_call stage player scope s (hstage ▸ hf) hv, hrun _ _ _ _ _ hs]
      exact congrArg some hreceive

theorem settings_of_not_isSetter (hr : stage.repertoire.OnlyStandard) (hs : symbol.isSetter = false)
    (h : outcome (scope.playSymbol stage player symbol) s = some (.ok scope', s')) :
    scope'.settings = scope.settings := by
  cases symbol with
  | call name arguments => exact settings_of_call hr (of_decide_eq_false hs) h
  | _ =>
    refine (keeps_playSymbol hr h).2 ?_
    intro name arguments hmem
    cases List.mem_singleton.mp hmem

theorem setsAlone_of_symbol (hr : stage.repertoire.OnlyStandard)
    (h : outcome (scope.playSymbol stage player symbol) s = some (.ok scope', s')) :
    stage.SetsAlone [symbol] scope.settings scope'.settings := by
  cases hs : symbol.isSetter with
  | false => exact settings_of_not_isSetter hr hs h ▸ .of_not_isSetter hs
  | true =>
    cases symbol with
    | call name arguments =>
      obtain ⟨τ, hrun⟩ :=
        exists_settings_of_setter hr (of_decide_eq_true hs) arguments scope.settings
      obtain ⟨scope₁, hscope₁, hτ⟩ := hrun stage player scope s rfl rfl
      obtain rfl : scope₁ = scope' := by
        rw [h] at hscope₁
        cases hscope₁
        rfl
      exact .of_isSetter hs fun player scope s h ↦ hτ ▸ hrun stage player scope s rfl h
    | _ => cases hs

theorem setsAlone_of_playFrom (hr : stage.repertoire.OnlyStandard) {index : Nat}
    (h : outcome (scope.playFrom stage player index xs) s = some (.ok scope', s')) :
    stage.SetsAlone xs scope.settings scope'.settings := by
  induction xs generalizing index scope s with
  | nil =>
    cases h
    exact .nil
  | cons x rest ih =>
    rw [outcome_playFrom_cons, andThen_eq_ok] at h
    obtain ⟨scope₁, s₁, hx, hrest⟩ := h
    exact (setsAlone_of_symbol hr hx).append (ih hrest)

end Scope

namespace Moment

variable {m₀ m m' : Moment} {start : Settings} {symbols : List Symbol} {k : Nat}

/-- How a run has come to a moment: the settings that its passage began with, the symbols of the
passage, and which of them it is at. -/
inductive Course (stage : Stage) (m₀ : Moment) : Settings → List Symbol → Nat → Moment → Prop
  | start {index : Nat} {symbols : List Symbol} (ht : m₀.task = .symbols index symbols) :
      Course stage m₀ m₀.scope.settings symbols 0 m₀
  | past {start : Settings} {symbols : List Symbol} {k : Nat} {m m' : Moment}
      (h : Course stage m₀ start symbols k m) (hn : Next stage m m')
      (ha : m'.around.length = m.around.length) {index : Nat} {rest : List Symbol}
      (ht : m'.task = .symbols index rest) : Course stage m₀ start symbols (k + 1) m'
  | within {start : Settings} {symbols : List Symbol} {k : Nat} {m m' : Moment}
      (h : Course stage m₀ start symbols k m) (hn : Next stage m m') {name : String}
      {access : Access} {script : Script (Option Passage)}
      (ht : m'.task = .script name access script) : Course stage m₀ start symbols k m'
  | into {start : Settings} {symbols : List Symbol} {k : Nat} {m m' : Moment}
      (h : Course stage m₀ start symbols k m) (hn : Next stage m m')
      (ha : m'.around.length = m.around.length + 1) {inner : List Symbol}
      (ht : m'.task = .symbols 0 inner) : Course stage m₀ m'.scope.settings inner 0 m'

theorem Next.begins (hn : Next stage m m') (ha : m'.around.length = m.around.length + 1) :
    ∃ inner, m'.task = .symbols 0 inner := by
  cases hn with
  | phrase | theme | play => exact ⟨_, rfl⟩
  | _ => exact absurd ha (Nat.ne_of_lt (Nat.lt_succ_self _))

theorem Reached.course (h : Reached stage m₀ m) {index : Nat} (ht : m₀.task = .symbols index xs) :
    ∃ start symbols k, Course stage m₀ start symbols k m := by
  induction h with
  | refl => exact ⟨_, _, _, .start ht⟩
  | @tail m m' _ hnext ih =>
    obtain ⟨start, symbols, k, hcourse⟩ := ih
    cases htask : m'.task with
    | script => exact ⟨_, _, _, hcourse.within hnext htask⟩
    | symbols index rest =>
      obtain ha | ha := hnext.around_length
      · exact ⟨_, _, _, hcourse.past hnext ha htask⟩
      · obtain ⟨inner, hinner⟩ := hnext.begins ha
        exact ⟨_, _, _, hcourse.into hnext ha hinner⟩

/-- What holds on the way: the settings in force are those that the setters passed so far have left,
also where a player is being called. -/
def Abides (stage : Stage) (start : Settings) (symbols : List Symbol) (k : Nat)
    (m : Moment) : Prop :=
  match m.task with
  | .symbols _ rest =>
    rest = symbols.drop k ∧ stage.SetsAlone (symbols.take k) start m.scope.settings
  | .script name _ script =>
    ∃ arguments values settings, symbols[k]? = some (.call name arguments) ∧
      arguments.mapM Value.ofArgument = .ok values ∧
      stage.SetsAlone (symbols.take k) start settings ∧
      (name ∈ Script.players → m.scope.settings = settings) ∧
      script.Underway name values m.scope.settings

theorem Next.underway (hn : Next stage m m') {name : String} {access : Access}
    {script : Script (Option Passage)} {values : List Value}
    (ht : m.task = .script name access script) (h : script.Underway name values m.scope.settings) :
    (∃ phrase overrides, Script.Lends values m.scope.settings name phrase overrides ∧
      m'.around = m.scope :: m.around ∧ m'.scope.settings = m.scope.settings.override overrides ∧
      m'.task = .symbols 0 phrase.written.1) ∨
    ∃ script', m'.task = .script name access script' ∧
    script'.Underway name values m'.scope.settings ∧
      (name ∈ Script.players → m'.scope.settings = m.scope.settings) ∧
      (m.scope.settings.Valid → m'.scope.settings.Valid) := by
  obtain horderly | ⟨r, rfl⟩ := h
  · cases hn with
    | past | phrase | theme | call => cases ht
    | play =>
      cases ht
      cases horderly with
      | play hlends => exact .inl ⟨_, _, hlends, rfl, rfl, rfl⟩
    | played =>
      cases ht
      cases horderly with
      | play _ hnext => exact .inr ⟨_, rfl, .inr ⟨_, hnext _⟩, fun _ ↦ rfl, id⟩
    | settings =>
      cases ht
      cases horderly with
      | settings horderly => exact .inr ⟨_, rfl, .inl horderly, fun _ ↦ rfl, id⟩
    | set =>
      cases ht
      cases horderly with
      | setSettings hname hvalid horderly =>
        exact .inr ⟨_, rfl, .inl horderly, fun h ↦ absurd h hname, hvalid⟩
    | joined | remarked | trace | record | progress =>
      cases ht
      cases horderly
  -- Nothing follows an answer.
  · cases r <;> cases hn <;> cases ht

theorem abides_begin {index : Nat} (ht : m.task = .symbols index xs) :
    m.Abides stage m.scope.settings xs 0 := by
  unfold Abides
  rw [ht]
  exact ⟨rfl, .nil⟩

section Next

variable (hr : stage.repertoire.OnlyStandard) (hm : m.Abides stage start symbols k)
  (hn : Next stage m m')
include hr hm hn

theorem Abides.past (ha : m'.around.length = m.around.length) {index : Nat}
    (ht : m'.task = .symbols index xs) :
    m'.Abides stage start symbols (k + 1) := by
  cases hn with
  | past hsymbol =>
    obtain ⟨hdrop, halone⟩ := hm
    obtain ⟨-, hrest, htake⟩ := of_drop_eq_cons hdrop.symm
    have hsets := Scope.setsAlone_of_symbol hr hsymbol
    rw [Scope.atIndex_settings] at hsets
    exact ⟨hrest.symm, htake ▸ halone.append hsets⟩
  | phrase | theme | play => exact absurd ha (Nat.succ_ne_self _)
  | _ => cases ht

theorem Abides.within {name : String} {access : Access} {script : Script (Option Passage)}
    (ht : m'.task = .script name access script) : m'.Abides stage start symbols k := by
  cases htask : m.task with
  | symbols =>
    cases hn with
    | past | phrase | theme => cases ht
    | call _ arguments function values hf hv =>
      obtain ⟨hdrop, halone⟩ := hm
      obtain ⟨f, hmem, rfl, rfl⟩ := hr _ function hf
      cases ht
      exact ⟨arguments, values, _, (of_drop_eq_cons hdrop.symm).1, hv, halone, fun _ ↦ rfl,
        .inl (Script.orderly_standard f hmem values _)⟩
    | _ => cases htask
  | script called =>
    rw [Abides, htask] at hm
    obtain ⟨arguments, values, settings, hget, hv, halone, hplayer, hunderway⟩ := hm
    obtain ⟨_, _, -, -, -, hinner⟩ | ⟨_, hrest, hunderway', hsame, -⟩ := hn.underway htask hunderway
    · cases ht.symm.trans hinner
    · cases ht.symm.trans hrest
      rw [Abides, ht]
      exact ⟨arguments, values, settings, hget, hv, halone,
        fun h ↦ (hsame h).trans (hplayer h), hunderway'⟩

end Next

theorem Course.abides (hr : stage.repertoire.OnlyStandard) (h : Course stage m₀ start symbols k m) :
    m.Abides stage start symbols k := by
  induction h with
  | start ht => exact abides_begin ht
  | past _ hn ha ht ih => exact ih.past hr hn ha ht
  | within _ hn ht ih => exact ih.within hr hn ht
  | into _ _ _ ht => exact abides_begin ht

theorem Course.handsDown (hr : stage.repertoire.OnlyStandard)
    (h : Course stage m₀ start symbols k m) (hn : Next stage m m')
    (ha : m'.around.length = m.around.length + 1) :
    ∃ symbol settings, symbols[k]? = some symbol ∧ stage.SetsAlone (symbols.take k) start settings ∧
      symbol.HandsDown settings m'.scope.settings := by
  have habides := h.abides hr
  cases htask : m.task with
  | symbols =>
    cases hn with
    | phrase times content =>
      obtain ⟨hdrop, halone⟩ := habides
      exact ⟨_, _, (of_drop_eq_cons hdrop.symm).1, halone, .phrase times content⟩
    | theme name content hc hactive =>
      obtain ⟨hdrop, halone⟩ := habides
      exact ⟨_, _, (of_drop_eq_cons hdrop.symm).1, halone, .theme name⟩
    | past | call => exact absurd ha (Nat.ne_of_lt (Nat.lt_succ_self _))
    | _ => cases htask
  | script =>
    rw [Abides, htask] at habides
    obtain ⟨arguments, values, settings, hget, hv, halone, hplayer, hunderway⟩ := habides
    obtain ⟨_, _, hlends, -, hinner, -⟩ | ⟨_, hrest, -⟩ := hn.underway htask hunderway
    · obtain rfl := hplayer hlends.mem_players
      exact ⟨_, _, hget, halone, hinner ▸ .call hv hlends⟩
    · obtain ⟨inner, hinner⟩ := hn.begins ha
      cases hrest.symm.trans hinner

end Moment

/-- Settings are lexically scoped. Symbols that have been played leave the settings that the setters
among them set alone. At every moment of a run the settings that its passage began with and the
symbols passed so far are known, and where the next symbol has a passage of its own, that passage
begins with what the setters among those have set, but for the override of a player. -/
theorem settings_lexically_scoped (hr : stage.repertoire.OnlyStandard) :
    (∀ (player : Player) index symbols (scope : Scope) s scope' s',
      outcome (scope.playFrom stage player index symbols) s = some (.ok scope', s') →
        stage.SetsAlone symbols scope.settings scope'.settings) ∧
    (∀ m₀ m index symbols, m₀.task = .symbols index symbols → Moment.Reached stage m₀ m →
      ∃ start symbols k, Moment.Course stage m₀ start symbols k m) ∧
    ∀ m₀ m m' start symbols k, Moment.Course stage m₀ start symbols k m → Moment.Next stage m m' →
      m'.around.length = m.around.length + 1 →
        ∃ symbol settings, symbols[k]? = some symbol ∧
        stage.SetsAlone (symbols.take k) start settings ∧
          symbol.HandsDown settings m'.scope.settings :=
  ⟨fun _ _ _ _ _ _ _ h ↦ Scope.setsAlone_of_playFrom hr h, fun _ _ _ _ ht h ↦ h.course ht,
    fun _ _ _ _ _ _ h hn ha ↦ h.handsDown hr hn ha⟩

namespace Scoped

def content : List Symbol :=
  [.call "Speed" [.number 120], .phrase (-1) [.call "Speed" [.number 30]],
    .call "Transpose" [.number 2, .symbol (.phrase (-1) [.call "Oct" [.number 1]])]]

end Scoped

theorem settings_lexically_scoped_speed : ∃ scope s,
    outcome ((Scope.enter (Repertoire.standard.stage {}) {} {} false).playFrom
      (Repertoire.standard.stage {}) (playerOf (Repertoire.standard.stage {}) 1) 0 Scoped.content)
        {} = some (.ok scope, s) ∧
    scope.settings = { speed := 120 } ∧
    (Repertoire.standard.stage {}).SetsAlone Scoped.content {} { speed := 120 } := by
  have hrun : (outcome ((Scope.enter (Repertoire.standard.stage {}) {} {} false).playFrom
      (Repertoire.standard.stage {}) (playerOf (Repertoire.standard.stage {}) 1) 0
      Scoped.content) {}).map
        (fun x ↦ x.1.map Scope.settings) = some (.ok { speed := 120 }) := by
    decide +kernel
  obtain ⟨⟨fault | scope, s⟩, hplayed, hsettings⟩ := Option.map_eq_some_iff.mp hrun
  · cases hsettings
  · have hset : scope.settings = { speed := 120 } := Except.ok.inj hsettings
    obtain ⟨halone, -⟩ :=
      @settings_lexically_scoped (Repertoire.standard.stage {}) Repertoire.onlyStandard_standard
    have hsets := halone _ _ _ _ _ _ _ hplayed
    rw [hset] at hsets
    exact ⟨scope, s, hplayed, hset, hsets⟩

end Rendition
