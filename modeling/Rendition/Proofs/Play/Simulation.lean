import Rendition.Proofs.Play.Alike

namespace Rendition

/-- Faults that differ at most in where an undefined theme was met. -/
inductive Fault.Alike : Fault → Fault → Prop
  | refl (fault : Fault) : Fault.Alike fault fault
  | undefined (name : String) (bar index bar' index' : Nat) :
      Fault.Alike (.undefinedTheme name bar index) (.undefinedTheme name bar' index')

/-- Answers that agree: on what is played by `R`, and on faults. -/
inductive Answers {α β : Type} (R : α → β → Prop) : Except Fault α → Except Fault β → Prop
  | ok {a : α} {b : β} (h : R a b) : Answers R (.ok a) (.ok b)
  | error {f g : Fault} (h : f.Alike g) : Answers R (.error f) (.error g)

/-- Passages with the same events and kinds of annotation, and with the same findings but for
lengths. -/
structure Passage.Alike (p q : Passage) : Prop where
  events : q.events = p.events
  findings : sounding q.remarks = sounding p.remarks
  after : ∀ k, k ∈ q.progress.after ↔ k ∈ p.progress.after

/-- Players that agree in sessions that differ at most in where their events begin. -/
def Player.Alike (p q : Player) : Prop :=
  ∀ settings remarks symbols s t r s' r' t', s.Alike t → outcome (p settings remarks symbols) s =
    some (r, s') →
    outcome (q settings remarks symbols) t = some (r', t') →
    Answers Passage.Alike r r' ∧ s'.Alike t'

namespace Scope

/-- The second scope has what the first has, after what a passage before has given. -/
structure Continues (before : Passage) (a b : Scope) : Prop where
  settings : b.settings = a.settings
  events : b.events = before.events ++ a.events
  findings : sounding b.remarks = sounding before.remarks ++ sounding a.remarks
  after : ∀ k, k ∈ b.progress.after ↔ k ∈ before.progress.after ∨ k ∈ a.progress.after

theorem mem_foldl_insertKind (k : String) (kinds more : List String) :
    k ∈ more.foldl (fun kinds kind ↦ insertKind kind kinds) kinds ↔ k ∈ kinds ∨ k ∈ more := by
  induction more generalizing kinds with
  | nil => simp
  | cons kind more ih =>
    rw [List.foldl_cons, ih, mem_insertKind, List.mem_cons, or_comm (a := k = kind), or_assoc]

theorem Recounts.sounding {a a' : Scope} (h : a.Recounts a') :
    sounding a'.remarks = Rendition.sounding a.remarks := by
  obtain ⟨added, he, hm⟩ := h.remarks
  rw [he, sounding_append, sounding_metric hm, List.append_nil]

section Parts

variable (scope : Scope) (stage : Stage)

theorem noted_remarks (s : Session) (note : Note) :
    (scope.noted stage s note).1.remarks = scope.remarks ++
      ((note.read stage scope.settings s.trace).findings ++
        Note.excesses (note.read stage scope.settings s.trace).sounds).map
          (.located · scope.progress.place) := rfl

theorem noted_after (s : Session) (note : Note) :
    (scope.noted stage s note).1.progress.after = scope.progress.after := by
  change (Progress.lengthen _ _).after = _
  unfold Progress.lengthen
  split <;> rfl

theorem sounding_absorb (passage : Passage) :
    Rendition.sounding (scope.absorb stage passage).remarks =
    Rendition.sounding scope.remarks ++ Rendition.sounding passage.remarks := by
  change Rendition.sounding ((scope.joinBars passage.progress).remarks ++ passage.remarks.map _) = _
  rw [sounding_append, (scope.joinBars_recounts passage.progress).sounding, sounding_within]

theorem mem_after_absorb (passage : Passage) (k : String) :
    k ∈ (scope.absorb stage passage).progress.after ↔
    k ∈ scope.progress.after ∨ k ∈ passage.progress.after := by
  change k ∈ passage.progress.after.foldl _ (scope.joinBars passage.progress).progress.after ↔ _
  rw [mem_foldl_insertKind, (scope.joinBars_recounts passage.progress).after]

end Parts

namespace Continues

variable {before : Passage} {a b a' b' : Scope} {stage : Stage}

theorem atIndex (h : Continues before a b) (i j : Nat) :
    Continues before (a.atIndex i) (b.atIndex j) :=
  ⟨h.settings, h.events, h.findings, h.after⟩

theorem recounts (h : Continues before a b) (ha : a.Recounts a') (hb : b.Recounts b') :
    Continues before a' b' where
  settings := by rw [hb.settings, ha.settings, h.settings]
  events := by rw [hb.events, ha.events, h.events]
  findings := by rw [hb.sounding, ha.sounding, h.findings]
  after k := by rw [hb.after, ha.after, h.after]

theorem remark (h : Continues before a b) (finding : Finding) :
    Continues before (a.remark finding) (b.remark finding) where
  settings := h.settings
  events := h.events
  findings := by
    change sounding (b.remarks ++ [_]) = _ ++ sounding (a.remarks ++ [_])
    rw [sounding_append, sounding_append, h.findings, List.append_assoc]
    rfl
  after := h.after

theorem playMarking (h : Continues before a b) (kind : String) :
    Continues before (a.playMarking stage kind) (b.playMarking stage kind) where
  settings := h.settings
  events := h.events
  findings := h.findings
  after k := by
    change k ∈ insertKind kind b.progress.after ↔ _ ∨ k ∈ insertKind kind a.progress.after
    rw [mem_insertKind, mem_insertKind, h.after]
    exact or_left_comm

theorem set (h : Continues before a b) (settings : Settings) :
    Continues before { a with settings } { b with settings } :=
  ⟨rfl, h.events, h.findings, h.after⟩

theorem noted (hp : stage.repertoire.plugins = ∅) (h : Continues before a b) {s t : Session}
    (hs : s.Alike t) (note : Note) :
    Continues before (a.noted stage s note).1 (b.noted stage t note).1 where
  settings := h.settings
  events := by
    rw [noted_events, noted_events, h.events, (hs.noted hp h.settings note).1, List.append_assoc]
  findings := by
    rw [noted_remarks, noted_remarks, sounding_append, sounding_append, h.findings,
      List.append_assoc, sounding_located, sounding_located, h.settings, hs.trace]
  after k := by rw [noted_after, noted_after, h.after]

theorem add (h : Continues before a b) {p q : Passage} (hpq : p.Alike q) (s t : Session) :
    Continues before (a.add stage p s).1 (b.add stage q t).1 where
  settings := by
    change (b.absorb stage q).settings = (a.absorb stage p).settings
    rw [absorb_settings, absorb_settings, h.settings]
  events := by
    change (b.absorb stage q).events = _ ++ (a.absorb stage p).events
    rw [absorb_events, absorb_events, h.events, hpq.events, List.append_assoc]
  findings := by
    change sounding (b.absorb stage q).remarks = _ ++ sounding (a.absorb stage p).remarks
    rw [sounding_absorb, sounding_absorb, h.findings, hpq.findings, List.append_assoc]
  after k := by
    change k ∈ (b.absorb stage q).progress.after ↔ _ ∨ k ∈ (a.absorb stage p).progress.after
    rw [mem_after_absorb, mem_after_absorb, h.after, hpq.after, or_assoc]

end Continues

variable {stage : Stage} {p q : Player} {before : Passage} {a b a' b' : Scope} {s t s' t' : Session}

def Agree (before : Passage) (r r' : Except Fault Scope × Session) : Prop :=
  Answers (Continues before) r.1 r'.1 ∧ r.2.Alike r'.2

theorem Continues.agree (h : Continues before a b) (hs : s.Alike t) :
    Agree before (.ok a, s) (.ok b, t) :=
  ⟨.ok h, hs⟩

theorem Continues.agree_add (h : Continues before a b) (hs : s.Alike t) {u v : Passage}
    (huv : u.Alike v) :
    Agree before (.ok (a.add stage u s).1, (a.add stage u s).2) (.ok (b.add stage v t).1,
      (b.add stage v t).2) :=
  ⟨.ok (h.add huv s t), ((hs.later _ _ _).symm.later _ _ _).symm⟩

theorem Continues.agree_take (h : Continues before a b) (hs : s.Alike t)
    {r r' : Except Fault Passage} (hr : Answers Passage.Alike r r') :
    Agree before (a.take stage s r) (b.take stage t r') := by
  cases hr with
  | ok huv => exact h.agree_add hs huv
  | error hf => exact ⟨.error hf, hs⟩

theorem Continues.agree_receive (h : Continues before a b) (hs : s.Alike t)
    {r r' : Except Fault (Option Passage)} (hr : Answers (Option.Rel Passage.Alike) r r')
    (name : String) :
    Agree before (a.receive stage s name r) (b.receive stage t name r') := by
  cases hr with
  | ok hrel =>
    cases hrel with
    | none => exact h.agree hs
    | some huv => exact h.agree_add hs huv
  | @error fault _ hf =>
    cases hf with
    | undefined theme bar index bar' index' => exact ⟨.error (.undefined ..), hs⟩
    | refl =>
      cases fault with
      | undefinedTheme theme bar index => exact ⟨.error (.refl _), hs⟩
      | setting | argument => exact (h.remark _).agree hs

theorem answer_agree (hpq : p.Alike q) {name : String} {access : Access} {phrases : List Phrase}
    {script : Script (Option Passage)} (hm : script.Modest phrases) (h : Continues before a b)
    (hs : s.Alike t) {r r' : Except Fault (Option Passage)}
    (ha : (answer stage p name access script a).run s = some ((r, a'), s'))
    (hb : (answer stage q name access script b).run t = some ((r', b'), t')) :
    Answers (Option.Rel Passage.Alike) r r' ∧ Continues before a' b' ∧ s'.Alike t' := by
  induction hm generalizing a b with
  | done =>
    cases ha
    cases hb
    exact ⟨.ok .none, h, hs⟩
  | fail hf =>
    cases ha
    cases hb
    exact ⟨.error (.refl _), h, hs⟩
  | settings _ ih =>
    rw [answer_settings] at ha
    rw [answer_settings, h.settings] at hb
    exact ih _ h ha hb
  | setSettings _ ih =>
    rw [answer_setSettings] at ha hb
    exact ih (h.set _) ha hb
  | @play phrase overrides next hp hnext =>
    rw [answer_play, playPhrase_full_run, Option.bind_eq_some_iff] at ha hb
    obtain ⟨⟨u, s₁⟩, hu, ha⟩ := ha
    obtain ⟨⟨v, t₁⟩, hv, hb⟩ := hb
    rw [h.settings] at hv
    obtain ⟨huv, hs₁⟩ := hpq _ _ _ _ _ _ _ _ _ hs hu hv
    dsimp only at ha hb
    rw [hnext] at ha hb
    cases huv with
    | ok huv =>
      cases ha
      cases hb
      exact ⟨.ok (.some huv), h, hs₁⟩
    | error hf =>
      cases ha
      cases hb
      exact ⟨.error hf, h, hs₁⟩

theorem playSymbol_agree (hr : stage.repertoire.OnlyStandard) (hp : stage.repertoire.plugins = ∅)
    (hpq : p.Alike q) (h : Continues before a b) (hs : s.Alike t) {symbol : Symbol}
    {x y : Except Fault Scope × Session} (ha : outcome (a.playSymbol stage p symbol) s = some x)
    (hb : outcome (b.playSymbol stage q symbol) t = some y) :
    Agree before x y := by
  obtain ⟨r, s'⟩ := x
  cases step_of_outcome ha with
  | note note =>
    rw [outcome_note] at hb
    cases hb
    exact (h.noted hp hs note).agree (hs.noted hp h.settings note).2
  | tie =>
    cases hb
    exact h.agree ⟨hs.trace, hs.pending, rfl, hs.active, hs.sounds⟩
  | barLine bar =>
    cases hb
    exact (h.recounts (a.playBarLine_recounts bar) (b.playBarLine_recounts bar)).agree hs
  | marking kind =>
    cases hb
    exact (h.playMarking kind).agree hs
  | inert symbol hi =>
    rw [outcome_inert _ _ _ _ hi] at hb
    cases hb
    exact h.agree hs
  | phrase times content r s₁ hu =>
    rw [outcome_phrase] at hb
    obtain ⟨⟨r', t₁⟩, hv, rfl⟩ := Option.map_eq_some_iff.mp hb
    rw [playRepeated, h.settings] at hv
    obtain ⟨huv, hs₁⟩ := hpq _ _ _ _ _ _ _ _ _ hs hu hv
    exact h.agree_take hs₁ huv
  | undefined name hnone =>
    rw [outcome_theme_none _ _ _ _ hnone] at hb
    cases hb
    exact ⟨.error (.undefined ..), hs⟩
  | active name content hc hmem =>
    rw [outcome_theme_active _ _ _ hc (hs.active ▸ hmem)] at hb
    cases hb
    exact (h.remark _).agree hs
  | theme name content hc hmem r s₁ hu =>
    rw [outcome_theme _ _ _ hc (hs.active ▸ hmem)] at hb
    obtain ⟨⟨r', t₁⟩, hv, rfl⟩ := Option.map_eq_some_iff.mp hb
    rw [playRepeated, h.settings] at hv
    obtain ⟨huv, hs₁⟩ := hpq _ _ _ _ _ _ _ _ _ (hs.entering name) hu hv
    exact h.agree_take hs₁.leaving huv
  | unknown name arguments hnone =>
    rw [outcome_call_none _ _ _ _ _ hnone] at hb
    cases hb
    exact (h.remark _).agree hs
  | formula name arguments function source fault hf he =>
    rw [outcome_call_error _ _ _ _ hf he] at hb
    cases hb
    exact (h.remark _).agree hs
  | call name arguments function values hf hv r a₁ s₁ hrun =>
    rw [outcome_call _ _ _ _ hf hv] at hb
    obtain ⟨⟨⟨r', b₁⟩, t₁⟩, hrun', rfl⟩ := Option.map_eq_some_iff.mp hb
    obtain ⟨f, hmem, -, rfl⟩ := hr name function hf
    obtain ⟨hrr, h₁, hs₁⟩ :=
      answer_agree hpq (Script.modest_standard f hmem name values) h hs hrun hrun'
    exact h₁.agree_receive hs₁ hrr name

theorem playFrom_agree (hr : stage.repertoire.OnlyStandard) (hp : stage.repertoire.plugins = ∅)
    (hpq : p.Alike q) (h : Continues before a b) (hs : s.Alike t) {i j : Nat}
    {symbols : List Symbol} {r r' : Except Fault Scope}
    (ha : outcome (a.playFrom stage p i symbols) s = some (r, s'))
    (hb : outcome (b.playFrom stage q j symbols) t = some (r', t')) :
    Answers (Continues before) r r' ∧ s'.Alike t' := by
  induction symbols generalizing a b s t i j with
  | nil =>
    cases ha
    cases hb
    exact h.agree hs
  | cons symbol rest ih =>
    rw [outcome_playFrom_cons, andThen_eq_some] at ha hb
    obtain ⟨fault, ha, rfl⟩ | ⟨a₁, s₁, ha, ha'⟩ :=
      ha <;> obtain ⟨fault', hb, rfl⟩ | ⟨b₁, t₁, hb, hb'⟩ := hb
    all_goals obtain ⟨hr₁, hs₁⟩ := playSymbol_agree hr hp hpq (h.atIndex i j) hs ha hb
    · exact ⟨hr₁, hs₁⟩
    · cases hr₁
    · cases hr₁
    · cases hr₁ with
      | ok h₁ => exact ih h₁ hs₁ ha' hb'

def soFar (scope : Scope) : Passage where
  events := scope.events
  marks := scope.marks
  remarks := scope.remarks
  progress := scope.progress

theorem Continues.conclude (h : Continues before a b) (s t : Session) :
    (b.conclude t).events = before.events ++ (a.conclude s).events ∧
      sounding (b.conclude t).remarks = sounding before.remarks ++ sounding (a.conclude s).remarks ∧
      ∀ k, k ∈ (b.conclude t).progress.after ↔ k ∈ before.progress.after ∨
      k ∈ (a.conclude s).progress.after := by
  have hc := h.recounts a.settleVoices_recounts b.settleVoices_recounts
  exact ⟨hc.events, hc.findings, hc.after⟩

end Scope

theorem playerOf_alike {stage : Stage} (hr : stage.repertoire.OnlyStandard)
    (hp : stage.repertoire.plugins = ∅) (d e : Nat) :
    (playerOf stage d).Alike (playerOf stage e) := by
  induction d generalizing e with
  | zero =>
    intro settings remarks symbols s t r s' r' t' hs ha
    cases ha
  | succ d ih =>
    intro settings remarks symbols s t r s' r' t' hs ha hb
    cases e with
    | zero => cases hb
    | succ e =>
      rw [outcome_playerOf] at ha hb
      obtain ⟨⟨u, s₁⟩, hu, hx⟩ := Option.map_eq_some_iff.mp ha
      obtain ⟨⟨v, t₁⟩, hv, hy⟩ := Option.map_eq_some_iff.mp hb
      cases hx
      cases hy
      have hbegin :
          (Scope.begin stage s settings remarks).Continues {} (.begin stage t settings remarks) :=
        ⟨rfl, rfl, rfl, fun k ↦ by simp [Scope.begin, Scope.enter]⟩
      obtain ⟨huv, hs'⟩ := Scope.playFrom_agree hr hp (ih e) hbegin hs hu hv
      refine ⟨?_, hs'⟩
      cases huv with
      | error hf => exact .error hf
      | ok h =>
        obtain ⟨he, hf, hk⟩ := h.conclude s₁ t₁
        exact .ok ⟨he, hf, fun k ↦ (hk k).trans (by simp)⟩

end Rendition
