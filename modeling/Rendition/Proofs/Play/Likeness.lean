import Rendition.Proofs.Play.Nesting
import Rendition.Proofs.Script.Parallel

namespace Rendition

/-- Faults that are the same but for the index at which an undefined theme was met, and its bar
as far as `B` says. -/
inductive Fault.Like (B : Nat → Nat → Prop) : Fault → Fault → Prop
  | own (fault : Fault) (h : fault.isFatal = false) : Fault.Like B fault fault
  | undefined (name : String) {bar bar' : Nat} (h : B bar bar') (index index' : Nat) :
      Fault.Like B (.undefinedTheme name bar index) (.undefinedTheme name bar' index')

inductive Likewise {α β : Type} (B : Nat → Nat → Prop) (R : α → β → Prop) :
    Except Fault α → Except Fault β → Prop
  | ok {a : α} {b : β} (h : R a b) : Likewise B R (.ok a) (.ok b)
  | error {f g : Fault} (h : f.Like B g) : Likewise B R (.error f) (.error g)

/-- Relations between what is played with and without idle symbols that every step keeps. -/
structure Likeness (stage : Stage) (loose : Bool) where
  settings : Settings → Settings → Prop
  scope : Scope → Scope → Prop
  passage : Passage → Passage → Prop
  bar : Nat → Nat → Prop
  /-- A bar line without a flag makes no difference here. -/
  rests : Scope → Prop
  kept : Settings.Kept settings
  settings_of_scope {a b : Scope} (h : scope a b) : settings a.settings b.settings
  bar_of_scope {a b : Scope} (h : scope a b) : bar a.progress.barCount b.progress.barCount
  enter {σ τ : Settings} {remarks remarks' : List Remark} (h : settings σ τ)
    (hr : remarks'.map Remark.unnumbered = remarks.map Remark.unnumbered) (s : Session)
    (nested : Bool) :
    scope { Scope.enter stage σ s nested with remarks }
      { Scope.enter stage τ s nested with remarks := remarks' }
  atIndex {a b : Scope} (h : scope a b) (i j : Nat) : scope (a.atIndex i) (b.atIndex j)
  remark {a b : Scope} (h : scope a b) (finding : Finding) :
    scope (a.remark finding) (b.remark finding)
  set {a b : Scope} {σ τ : Settings} (h : scope a b) (hs : settings σ τ) :
    scope { a with settings := σ } { b with settings := τ }
  playBarLine {a b : Scope} (h : scope a b) (line : BarLine) :
    scope (a.playBarLine line) (b.playBarLine line)
  playMarking {a b : Scope} (h : scope a b) (kind : String) :
    scope (a.playMarking stage kind) (b.playMarking stage kind)
  noted {a b : Scope} (h : scope a b) (s : Session) (note : Note) :
    scope (a.noted stage s note).1 (b.noted stage s note).1 ∧
    (b.noted stage s note).2 = (a.noted stage s note).2
  add {a b : Scope} {p q : Passage} (h : scope a b) (hp : passage p q) (s : Session) :
    scope (a.add stage p s).1 (b.add stage q s).1 ∧ (b.add stage q s).2 = (a.add stage p s).2
  conclude {a b : Scope} (h : scope a b) (s : Session) : passage (a.conclude s) (b.conclude s)
  rests_enter (σ : Settings) (remarks : List Remark) (s : Session) (nested : Bool) :
    rests { Scope.enter stage σ s nested with remarks }
  rests_atIndex {a : Scope} (h : rests a) (i : Nat) : rests (a.atIndex i)
  rests_playBarLine (a : Scope) (line : BarLine) : rests (a.playBarLine line)
  rests_of_loose (h : loose) (a : Scope) : rests a
  idle_left {a b : Scope} (h : scope a b) (ha : rests a) : scope (a.playBarLine {}) b
  idle_right {a b : Scope} (h : scope a b) (ha : rests a) : scope a (b.playBarLine {})

theorem Scope.outcome_idle (scope : Scope) (stage : Stage) (player : Player) (s : Session)
    {rests : Bool} {x : Symbol} (hx : x.isIdle rests) :
    outcome (scope.playSymbol stage player x) s = some (.ok scope, s) ∨
      rests ∧
        outcome (scope.playSymbol stage player x) s = some (.ok (scope.playBarLine {}), s) := by
  obtain hi | ⟨hrests, rfl⟩ := Symbol.inert_or_plainBar hx
  · exact .inl (scope.outcome_inert stage player s hi)
  · exact .inr ⟨hrests, rfl⟩

variable {stage : Stage} {loose : Bool} {edit : List Symbol → List Symbol}

/-- Players whose passages are alike where their symbols are the same but for idle ones. -/
def Player.Matches (L : Likeness stage loose) (edit : List Symbol → List Symbol)
    (p q : Player) : Prop :=
  ∀ σ τ remarks remarks' xs ys s r r' s' t', L.settings σ τ →
    remarks'.map Remark.unnumbered = remarks.map Remark.unnumbered → Matched edit loose true xs ys →
    outcome (p σ remarks xs) s = some (r, s') → outcome (q τ remarks' ys) s = some (r', t') →
    Likewise L.bar L.passage r r' ∧ t' = s'

namespace Likeness

variable (L : Likeness stage loose) {p q : Player} {a b a' b' : Scope} {s s' t' : Session}

def Agree (x y : Except Fault Scope × Session) : Prop := Likewise L.bar L.scope x.1 y.1 ∧ y.2 = x.2

variable {L}

theorem agree_take (h : L.scope a b) {r r' : Except Fault Passage}
    (hr : Likewise L.bar L.passage r r') (s : Session) :
    L.Agree (a.take stage s r) (b.take stage s r') := by
  cases hr with
  | ok hp => exact ⟨.ok (L.add h hp s).1, (L.add h hp s).2⟩
  | error hf => exact ⟨.error hf, rfl⟩

theorem agree_receive (h : L.scope a b) {r r' : Except Fault (Option Passage)}
    (hr : Likewise L.bar (Option.Rel L.passage) r r') (s : Session) (name : String) :
    L.Agree (a.receive stage s name r) (b.receive stage s name r') := by
  cases hr with
  | ok hrel =>
    cases hrel with
    | none => exact ⟨.ok h, rfl⟩
    | some hp => exact ⟨.ok (L.add h hp s).1, (L.add h hp s).2⟩
  | @error f _ hf =>
    cases hf with
    | undefined theme hbar index index' => exact ⟨.error (.undefined theme hbar index index'), rfl⟩
    | own _ hown =>
      cases f with
      | undefinedTheme => cases hown
      | setting | argument => exact ⟨.ok (L.remark h _), rfl⟩

section Run

variable (hpq : p.Matches L edit q)
include hpq

theorem answer_matches {name : String} {access : Access} {script script' : Script (Option Passage)}
    (hscript : Script.Parallel L.settings (Phrase.Matched edit loose) script script')
    (h : L.scope a b) {r r' : Except Fault (Option Passage)}
    (ha : (Scope.answer stage p name access script a).run s = some ((r, a'), s'))
    (hb : (Scope.answer (stage.edited edit) q name access script' b).run s = some ((r', b'), t')) :
    Likewise L.bar (Option.Rel L.passage) r r' ∧ L.scope a' b' ∧ t' = s' := by
  induction hscript generalizing a b with
  | done =>
    cases ha
    cases hb
    exact ⟨.ok .none, h, rfl⟩
  | fail hf =>
    cases ha
    cases hb
    exact ⟨.error (.own _ hf), h, rfl⟩
  | settings _ ih =>
    rw [Scope.answer_settings] at ha hb
    exact ih _ _ (L.settings_of_scope h) h ha hb
  | setSettings hs _ ih =>
    rw [Scope.answer_setSettings] at ha hb
    exact ih (L.set h hs) ha hb
  | @play phrase phrase' overrides next next' hp hnext hnext' =>
    rw [Scope.answer_play, Scope.playPhrase_full_run, Option.bind_eq_some_iff] at ha hb
    obtain ⟨⟨u, s₁⟩, hu, ha⟩ := ha
    obtain ⟨⟨v, t₁⟩, hv, hb⟩ := hb
    have hsettings := L.kept.override (L.settings_of_scope h) overrides
    obtain ⟨huv, rfl⟩ := hpq _ _ _ _ _ _ _ _ _ _ _ hsettings hp.written.2 hp.written.1 hu hv
    dsimp only at ha hb
    rw [hnext] at ha
    rw [hnext'] at hb
    cases huv with
    | ok huv =>
      cases ha
      cases hb
      exact ⟨.ok (.some huv), h, rfl⟩
    | error hf =>
      cases ha
      cases hb
      exact ⟨.error hf, h, rfl⟩

theorem playRepeated_matches (h : L.scope a b) {xs ys : List Symbol}
    (hm : Matched edit loose loose xs ys) {times : Int} {r r' : Except Fault Passage}
    (ha : outcome (a.playRepeated p xs times) s = some (r, s'))
    (hb : outcome (b.playRepeated q ys times) s = some (r', t')) :
    Likewise L.bar L.passage r r' ∧ t' = s' :=
  hpq _ _ _ _ _ _ _ _ _ _ _ (L.settings_of_scope h) (hm.unnumbered_unfold times)
    (hm.unfold times) ha hb

variable (hr : stage.repertoire.OnlyStandard) (hedit : Spares edit loose)
include hr hedit

theorem playSymbol_matches (h : L.scope a b) {symbol : Symbol} {x y : Except Fault Scope × Session}
    (ha : outcome (a.playSymbol stage p symbol) s = some x)
    (hb : outcome (b.playSymbol (stage.edited edit) q (symbol.edited edit)) s = some y) :
    L.Agree x y := by
  obtain ⟨r, s'⟩ := x
  cases Scope.step_of_outcome ha with
  | note note =>
    cases hb
    exact ⟨.ok (L.noted h s note).1, (L.noted h s note).2⟩
  | tie =>
    cases hb
    exact ⟨.ok h, rfl⟩
  | barLine line =>
    cases hb
    exact ⟨.ok (L.playBarLine h line), rfl⟩
  | marking kind =>
    cases hb
    exact ⟨.ok (L.playMarking h kind), rfl⟩
  | inert symbol hi =>
    rw [Scope.outcome_inert _ _ _ _ ((Symbol.isInert_edited edit symbol).trans hi)] at hb
    cases hb
    exact ⟨.ok h, rfl⟩
  | phrase times content r s₁ hu =>
    rw [Symbol.edited, Scope.outcome_phrase] at hb
    obtain ⟨⟨r', t₁⟩, hv, rfl⟩ := Option.map_eq_some_iff.mp hb
    obtain ⟨huv, rfl⟩ := playRepeated_matches hpq h (hedit content) hu hv
    exact agree_take h huv t₁
  | undefined name hnone =>
    have hnone' : (stage.edited edit).repertoire.themes.find? name = none := by
      rw [Repertoire.find?_edited, hnone, Option.map_none]
    rw [Symbol.edited_theme, Scope.outcome_theme_none _ _ _ _ hnone'] at hb
    cases hb
    exact ⟨.error (.undefined name (L.bar_of_scope h) _ _), rfl⟩
  | active name content hc hmem =>
    have hc' : (stage.edited edit).repertoire.themes.find? name =
        some (Symbol.editAll edit content) := by
      rw [Repertoire.find?_edited, hc, Option.map_some]
    rw [Symbol.edited_theme, Scope.outcome_theme_active _ _ _ hc' hmem] at hb
    cases hb
    exact ⟨.ok (L.remark h _), rfl⟩
  | theme name content hc hmem r s₁ hu =>
    have hc' : (stage.edited edit).repertoire.themes.find? name =
        some (Symbol.editAll edit content) := by
      rw [Repertoire.find?_edited, hc, Option.map_some]
    rw [Symbol.edited_theme, Scope.outcome_theme _ _ _ hc' hmem] at hb
    obtain ⟨⟨r', t₁⟩, hv, rfl⟩ := Option.map_eq_some_iff.mp hb
    obtain ⟨huv, rfl⟩ := playRepeated_matches hpq h (hedit content) hu hv
    exact agree_take h huv t₁.leaving
  | unknown name arguments hnone =>
    have hnone' : (stage.edited edit).repertoire.functions.find? name = none := hnone
    rw [Symbol.edited, Scope.outcome_call_none _ _ _ _ _ hnone'] at hb
    cases hb
    exact ⟨.ok (L.remark h _), rfl⟩
  | formula name arguments function source fault hf he =>
    obtain ⟨e, he', hedited⟩ | ⟨vs, ws, hv, -⟩ := Value.mapM_edited hedit arguments
    · rw [he] at he'
      cases he'
      have hf' : (stage.edited edit).repertoire.functions.find? name = some function := hf
      rw [Symbol.edited, Scope.outcome_call_error _ _ _ _ hf' hedited] at hb
      cases hb
      exact ⟨.ok (L.remark h _), rfl⟩
    · rw [he] at hv
      cases hv
  | call name arguments function values hf hv r a₁ s₁ hrun =>
    obtain ⟨e, he, -⟩ | ⟨vs, ws, hv', hw, hall⟩ := Value.mapM_edited hedit arguments
    · rw [hv] at he
      cases he
    · rw [hv] at hv'
      cases hv'
      have hf' : (stage.edited edit).repertoire.functions.find? name = some function := hf
      rw [Symbol.edited, Scope.outcome_call _ _ _ _ hf' hw] at hb
      obtain ⟨⟨⟨r', b₁⟩, t₁⟩, hrun', rfl⟩ := Option.map_eq_some_iff.mp hb
      obtain ⟨f, hmem, -, rfl⟩ := hr name function hf
      obtain ⟨hrr, h₁, rfl⟩ :=
        answer_matches hpq (Script.parallel_standard L.kept hall f hmem name) h hrun hrun'
      exact agree_receive h₁ hrr t₁ name

/-- Lists that are the same but for idle symbols are played alike. What carries the induction is
that a bar line without a flag makes no difference wherever the lists claim to rest. -/
theorem playFrom_matches {rests : Bool} {xs ys : List Symbol} (hm : Matched edit loose rests xs ys)
    (h : L.scope a b) (hrests : rests → L.rests a) {i j : Nat} {r r' : Except Fault Scope}
    (ha : outcome (a.playFrom stage p i xs) s = some (r, s'))
    (hb : outcome (b.playFrom (stage.edited edit) q j ys) s = some (r', t')) :
    Likewise L.bar L.scope r r' ∧ t' = s' := by
  induction hm generalizing a b s i j with
  | nil =>
    cases ha
    cases hb
    exact ⟨.ok h, rfl⟩
  | @both rests x xs ys _ ih =>
    rw [Scope.outcome_playFrom_cons, andThen_eq_some] at ha hb
    obtain ⟨fault, ha, rfl⟩ | ⟨a₁, s₁, ha, ha'⟩ :=
      ha <;> obtain ⟨fault', hb, rfl⟩ | ⟨b₁, t₁, hb, hb'⟩ := hb
    all_goals obtain ⟨hr₁, ht⟩ := playSymbol_matches hpq hr hedit (L.atIndex h i j) ha hb
    all_goals dsimp only at hr₁ ht
    · exact ⟨by cases hr₁ with | error hf => exact .error hf, ht⟩
    · cases hr₁
    · cases hr₁
    · subst ht
      cases hr₁ with
      | ok h₁ =>
        refine ih h₁ (fun hnext ↦ ?_) ha' hb'
        obtain hl | hbar := Bool.or_eq_true _ _ ▸ hnext
        · exact L.rests_of_loose hl a₁
        · cases x with
          | barLine line =>
            cases ha
            exact L.rests_playBarLine _ line
          | note | call | phrase | theme | tie | clef | comment | space | marking => cases hbar
  | left hx _ ih =>
    rw [Scope.outcome_playFrom_cons] at ha
    have hi : L.scope (a.atIndex i) b := L.atIndex h i b.progress.index
    obtain hsame | ⟨hrests', hbar⟩ := (a.atIndex i).outcome_idle stage p s hx
    · rw [hsame] at ha
      exact ih hi (fun hr ↦ L.rests_atIndex (hrests hr) i) ha hb
    · rw [hbar] at ha
      exact ih (L.idle_left hi (L.rests_atIndex (hrests hrests') i)) (fun _ ↦
        L.rests_playBarLine _ _) ha hb
  | right hy _ ih =>
    rw [Scope.outcome_playFrom_cons] at hb
    have hj : L.scope a (b.atIndex j) := L.atIndex h a.progress.index j
    obtain hsame | ⟨hrests', hbar⟩ := (b.atIndex j).outcome_idle (stage.edited edit) q s hy
    · rw [hsame] at hb
      exact ih hj hrests ha hb
    · rw [hbar] at hb
      exact ih (L.idle_right hj (hrests hrests')) hrests ha hb

end Run

theorem playerOf_matches (L : Likeness stage loose) (hr : stage.repertoire.OnlyStandard)
    (hedit : Spares edit loose) (d e : Nat) :
    (playerOf stage d).Matches L edit (playerOf (stage.edited edit) e) := by
  induction d generalizing e with
  | zero =>
    intro σ τ remarks remarks' xs ys s r r' s' t' _ _ _ ha
    cases ha
  | succ d ih =>
    intro σ τ remarks remarks' xs ys s r r' s' t' hsettings hremarks hm ha hb
    cases e with
    | zero => cases hb
    | succ e =>
      rw [outcome_playerOf] at ha hb
      obtain ⟨⟨u, s₁⟩, hu, hx⟩ := Option.map_eq_some_iff.mp ha
      obtain ⟨⟨v, t₁⟩, hv, hy⟩ := Option.map_eq_some_iff.mp hb
      cases hx
      cases hy
      obtain ⟨huv, rfl⟩ := playFrom_matches (ih e) hr hedit hm (L.enter hsettings hremarks s true)
        (fun _ ↦ L.rests_enter σ remarks s true) hu hv
      refine ⟨?_, rfl⟩
      cases huv with
      | error hf => exact .error hf
      | ok h => exact .ok (L.conclude h _)

theorem playTrack_matches (L : Likeness stage loose) (hr : stage.repertoire.OnlyStandard)
    (hedit : Spares edit loose) {σ τ : Settings} (hsettings : L.settings σ τ) {xs ys : List Symbol}
    (hm : Matched edit loose loose xs ys) {u v : Except Fault (Settings × Passage)}
    (ha : outcome (playTrack stage σ xs) s = some (u, s'))
    (hb : outcome (playTrack (stage.edited edit) τ ys) s = some (v, t')) :
    Likewise L.bar (fun x y ↦ L.settings x.1 y.1 ∧ L.passage x.2 y.2) u v ∧ t' = s' := by
  rw [outcome_playTrack] at ha hb
  obtain ⟨⟨r, s₁⟩, hu, hx⟩ := Option.map_eq_some_iff.mp ha
  obtain ⟨⟨r', t₁⟩, hv, hy⟩ := Option.map_eq_some_iff.mp hb
  cases hx
  cases hy
  obtain ⟨huv, rfl⟩ := playFrom_matches (playerOf_matches L hr hedit _ _) hr hedit hm
    (L.enter hsettings (rfl : [].map Remark.unnumbered = []) s false) (L.rests_of_loose · _) hu hv
  refine ⟨?_, rfl⟩
  cases huv with
  | error hf => exact .error hf
  | ok h => exact .ok ⟨L.settings_of_scope h, L.conclude h _⟩

end Likeness

def Performance.ofTrack (id : String) (instrument : Instrument) (s : Session)
    (played : Settings × Passage) :
    Performance where
  id
  instrument := instrument.name
  events := s.eventsAt played.2.events
  marks := played.2.marks
  remarks := dropFinalShort played.2.progress.duration played.2.remarks ++
    finalRemarks played.1 played.2.progress.duration instrument.name
  progress := played.2.progress
  effects := played.1.effects

section Perform

variable {r : Repertoire} {σ τ : Settings} {instrument : Instrument}

theorem perform_eq_ofTrack (hp : r.plugins = ∅) (id : String) (name : Option String)
    (content : List Symbol) :
    perform r σ instrument id name content =
      (outcome (playTrack (r.stage instrument) σ (instrument.opening ++ content))
        (.opening name)).map
        fun x ↦ x.1.map (.ofTrack id instrument x.2) := by
  rw [perform_eq, hp]
  rfl

theorem playTrack_fatal {stage : Stage} {symbols : List Symbol} {s s' : Session} {fault : Fault}
    (h : outcome (playTrack stage σ symbols) s = some (.error fault, s')) : fault.isFatal := by
  rw [outcome_playTrack] at h
  obtain ⟨⟨answer, s₁⟩, hrun, he⟩ := Option.map_eq_some_iff.mp h
  cases answer with
  | ok scope => cases he
  | error fault' =>
    cases he
    exact Scope.playFrom_fatal (playerOf_endsFatally _ _) hrun

theorem perform_matches (L : Likeness (r.stage instrument) loose) (hr : r.OnlyStandard)
    (hp : r.plugins = ∅) (hedit : Spares edit loose) (hsettings : L.settings σ τ) (id : String)
    (name : Option String) (content : List Symbol) :
    (∃ theme bar bar' index index', L.bar bar bar' ∧
        perform r σ instrument id name content = some (.error (.undefinedTheme theme bar index)) ∧
        perform (r.edited edit) τ (instrument.edited edit) id name (Symbol.editAll edit content) =
          some (.error (.undefinedTheme theme bar' index'))) ∨
      ∃ x y s, L.settings x.1 y.1 ∧ L.passage x.2 y.2 ∧
        perform r σ instrument id name content = some (.ok (.ofTrack id instrument s x)) ∧
        perform (r.edited edit) τ (instrument.edited edit) id name (Symbol.editAll edit content) =
          some (.ok (.ofTrack id instrument s y)) := by
  have hr' : (r.stage instrument).repertoire.OnlyStandard := hr
  have hr'' : ((r.edited edit).stage (instrument.edited edit)).repertoire.OnlyStandard := hr
  have hp' : (r.edited edit).plugins = ∅ := hp
  have hm : Matched edit loose loose (instrument.opening ++ content)
      ((instrument.edited edit).opening ++ Symbol.editAll edit content) :=
    (hedit instrument.opening).append (fun h ↦ h) (hedit content)
  obtain ⟨⟨u, s'⟩, hu⟩ := playTrack_ends hr' σ (instrument.opening ++ content) (.opening name)
  obtain ⟨⟨v, t'⟩, hv⟩ :=
    playTrack_ends hr'' τ ((instrument.edited edit).opening ++ Symbol.editAll edit content)
      (.opening name)
  obtain ⟨hlike, rfl⟩ := L.playTrack_matches hr' hedit hsettings hm hu hv
  rw [perform_eq_ofTrack hp, hu, perform_eq_ofTrack hp', hv]
  cases hlike with
  | @ok x y h => exact .inr ⟨x, y, t', h.1, h.2, rfl, rfl⟩
  | error hf =>
    cases hf with
    | undefined theme hbar index index' => exact .inl ⟨theme, _, _, index, index', hbar, rfl, rfl⟩
    | own _ hown =>
      have hfatal := playTrack_fatal hu
      rw [hown] at hfatal
      cases hfatal

end Perform

end Rendition
