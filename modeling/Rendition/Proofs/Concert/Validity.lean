import Rendition.Proofs.Concert.References
import Rendition.Proofs.Play.Validity

namespace Rendition

variable {α β : Type}

namespace Concert

theorem result_bind_eq_ok {concert : Concert α} {next : α → Concert β} {b : β} {r r' : Repertoire} :
    (concert >>= next).result r = some (.ok b, r') ↔
      ∃ a r₁, concert.result r = some (.ok a, r₁) ∧ (next a).result r₁ = some (.ok b, r') := by
  rw [result_bind, Option.bind_eq_some_iff]
  constructor
  · rintro ⟨⟨fault | a, r₁⟩, ha, hb⟩
    · cases hb
    · exact ⟨a, r₁, ha, hb⟩
  · rintro ⟨a, r₁, ha, hb⟩
    exact ⟨_, ha, hb⟩

def KeepsFunctions (concert : Concert α) : Prop :=
  ∀ r x r', concert.result r = some (x, r') → r'.functions = r.functions

namespace KeepsFunctions

theorem bind {concert : Concert α} {next : α → Concert β} (h : concert.KeepsFunctions)
    (hn : ∀ a, (next a).KeepsFunctions) : (concert >>= next).KeepsFunctions := by
  intro r x r' hx
  rw [result_bind, Option.bind_eq_some_iff] at hx
  obtain ⟨⟨fault | a, r₁⟩, hy, hrest⟩ := hx
  · cases hrest
    exact h r _ _ hy
  · exact (hn a r₁ x r' hrest).trans (h r _ _ hy)

theorem pure (a : α) : KeepsFunctions (Pure.pure a) := by
  intro r x r' hx
  cases hx
  rfl

theorem applyCalls (settings : Settings) (calls : List Call) :
    (applyCalls settings calls).KeepsFunctions := by
  intro r x r' hx
  rw [result_applyCalls, Option.map_eq_some_iff] at hx
  obtain ⟨y, -, he⟩ := hx
  cases he
  rfl

theorem performing (settings : Settings) (instrument : Instrument) (id : String) (track : Track) :
    (performing settings instrument id track).KeepsFunctions := by
  intro r x r' hx
  obtain ⟨y, -, he⟩ := Option.map_eq_some_iff.mp hx
  cases he
  rfl

theorem composes : Composes KeepsFunctions where
  congr h hq r x r' hx := hq r x r' (h r ▸ hx)
  pure := pure
  bind := bind
  applyCalls := applyCalls
  performing := performing
  introducing track := by
    intro r x r' hx
    cases hx
    exact r.introduce_functions track

end KeepsFunctions

def calling (r : Repertoire) (settings : Settings) (calls : List Call) : Moment :=
  .start ⟨r, ∅⟩ settings (calls.map Call.symbol) {}

/-- A run begins in a section with these tracks: a track is played on each of its instruments, and
is a theme by then if it has a name. -/
inductive OpensTrack (settings : Settings) : Repertoire → List Track → Stage → Moment → Prop
  | here {r : Repertoire} {track : Track} {rest : List Track} {instrument : Instrument}
      (h : instrument ∈ track.players) :
      OpensTrack settings r (track :: rest) ((r.introduce track).stage instrument)
        ((r.introduce track).opening settings instrument track.name track.content)
  | later {r : Repertoire} {track : Track} {rest : List Track} {stage : Stage} {m : Moment}
      (h : OpensTrack settings (r.introduce track) rest stage m) :
      OpensTrack settings r (track :: rest) stage m

/-- A run begins in a concert of these sections, which `global` is handed to. -/
inductive Opens : Repertoire → Settings → List Section → Stage → Moment → Prop
  | prolog {r : Repertoire} {global : Settings} {s : Section} {rest : List Section} :
      Opens r global (s :: rest) ⟨r, ∅⟩ (calling r global s.prolog)
  | settings {r r' : Repertoire} {global global' : Settings} {s : Section} {rest : List Section}
      {remarks : List Remark}
      (hp : (applyCalls global s.prolog).result r = some (.ok (global', remarks), r')) :
      Opens r global (s :: rest) ⟨r', ∅⟩ (calling r' global' s.settings)
  | track {r r' r'' : Repertoire} {global global' settings : Settings} {s : Section}
      {rest : List Section} {remarks remarks' : List Remark} {stage : Stage} {m : Moment}
      (hp : (applyCalls global s.prolog).result r = some (.ok (global', remarks), r'))
      (hs : (applyCalls global' s.settings).result r' = some (.ok (settings, remarks'), r''))
      (ht : OpensTrack settings r'' s.tracks stage m) : Opens r global (s :: rest) stage m
  | later {r r' : Repertoire} {global global' : Settings} {s : Section} {rest : List Section}
      {performance : Option SectionPerformance} {stage : Stage} {m : Moment}
      (hp : (playSection global s).result r = some (.ok (global', performance), r'))
      (h : Opens r' global' rest stage m) : Opens r global (s :: rest) stage m

section Valid

variable {r r' : Repertoire} {global global' settings settings' : Settings} {s : Section}
  {sections : List Section} {tracks : List Track} {stage : Stage} {m : Moment} {calls : List Call}
  {remarks : List Remark}

theorem valid_of_applyCalls (hr : r.OnlyStandard) (hvalid : settings.Valid)
    (h : (applyCalls settings calls).result r = some (.ok (settings', remarks), r')) :
    r'.OnlyStandard ∧ settings'.Valid := by
  have hstage : (Stage.mk r ∅).repertoire.OnlyStandard := hr
  rw [result_applyCalls, Option.map_eq_some_iff] at h
  obtain ⟨⟨fault | scope, s⟩, hplayed, he⟩ := h
  · cases he
  · cases he
    exact ⟨hr, Scope.valid_of_playFrom hstage hvalid hplayed⟩

theorem valid_of_playSection (hr : r.OnlyStandard) (hvalid : global.Valid)
    {performance : Option SectionPerformance}
    (h : (playSection global s).result r = some (.ok (global', performance), r')) :
    r'.OnlyStandard ∧ global'.Valid ∧ ∀ p ∈ performance, p.settings.Valid := by
  have hr' : r'.OnlyStandard := by
    rw [Repertoire.OnlyStandard, KeepsFunctions.composes.playSection global s r _ _ h]
    exact hr
  obtain ⟨⟨left, prologRemarks⟩, r₁, hprolog, h⟩ := result_bind_eq_ok.mp h
  obtain ⟨hr₁, hleft⟩ := valid_of_applyCalls hr hvalid hprolog
  obtain ⟨⟨settings, remarks⟩, r₂, hsettings, h⟩ := result_bind_eq_ok.mp h
  obtain ⟨-, hset⟩ := valid_of_applyCalls hr₁ hleft hsettings
  obtain ⟨played, r₃, -, h⟩ := result_bind_eq_ok.mp h
  dsimp only at h
  split at h
  · cases h
    exact ⟨hr', hleft, fun p hp ↦ absurd hp (Option.not_mem_none p)⟩
  · cases h
    refine ⟨hr', hleft, ?_⟩
    rintro p ⟨⟩
    exact hset

theorem valid_of_playSections (hr : r.OnlyStandard) (hvalid : global.Valid)
    {performances : List SectionPerformance}
    (h : (playSections global sections).result r = some (.ok performances, r')) :
    ∀ p ∈ performances, p.settings.Valid := by
  induction sections generalizing r global performances with
  | nil =>
    cases h
    exact nofun
  | cons s rest ih =>
    obtain ⟨⟨left, performance⟩, r₁, hsection, h⟩ := result_bind_eq_ok.mp h
    obtain ⟨hr₁, hleft, hperformance⟩ := valid_of_playSection hr hvalid hsection
    obtain ⟨later, r₂, hlater, h⟩ := result_bind_eq_ok.mp h
    cases h
    intro p hmem
    obtain hmem | hmem := List.mem_append.mp hmem
    · exact hperformance p (Option.mem_toList.mp hmem)
    · exact ih hr₁ hleft hlater p hmem

theorem OpensTrack.valid (h : OpensTrack settings r tracks stage m) (hr : r.OnlyStandard)
    (hvalid : settings.Valid) :
    m.scope.settings.check = .ok () ∧ m.StaysValid stage := by
  induction h with
  | @here r track rest instrument =>
    have hstage : ((r.introduce track).stage instrument).repertoire.OnlyStandard := by
      rw [Repertoire.OnlyStandard, Repertoire.introduce_functions]
      exact hr
    have hcheck : settings.check = .ok () := Settings.check_eq_ok.mpr hvalid
    exact ⟨hcheck, Moment.staysValid_of_symbols hstage hcheck rfl⟩
  | @later r track _ _ _ _ ih =>
    refine ih ?_
    rw [Repertoire.OnlyStandard, Repertoire.introduce_functions]
    exact hr

theorem valid_of_calling (hr : r.OnlyStandard) (hvalid : settings.Valid) :
    (calling r settings calls).scope.settings.check = .ok () ∧
    (calling r settings calls).StaysValid ⟨r, ∅⟩ := by
  have hstage : (Stage.mk r ∅).repertoire.OnlyStandard := hr
  have hcheck : settings.check = .ok () := Settings.check_eq_ok.mpr hvalid
  exact ⟨hcheck, Moment.staysValid_of_symbols hstage hcheck rfl⟩

theorem Opens.valid (h : Opens r global sections stage m) (hr : r.OnlyStandard)
    (hvalid : global.Valid) :
    m.scope.settings.check = .ok () ∧ m.StaysValid stage := by
  induction h with
  | prolog => exact valid_of_calling hr hvalid
  | settings hprolog =>
    obtain ⟨hr', hglobal⟩ := valid_of_applyCalls hr hvalid hprolog
    exact valid_of_calling hr' hglobal
  | track hprolog hsettings htrack =>
    obtain ⟨hr', hglobal⟩ := valid_of_applyCalls hr hvalid hprolog
    obtain ⟨hr'', hset⟩ := valid_of_applyCalls hr' hglobal hsettings
    exact htrack.valid hr'' hset
  | later hsection _ ih =>
    obtain ⟨hr', hglobal, -⟩ := valid_of_playSection hr hvalid hsection
    exact ih hr' hglobal

end Valid

/-- Settings that pass their check do so in every passage, however deep, whatever functions are
called with, and so do all those of a score that no plugin sets up. Only in the passage of a tuplet
could they fail to, were the logarithm of its count not to lie in the unit above its own floor. -/
theorem settings_stay_valid {r : Repertoire} (hr : r.OnlyStandard) :
    (∀ settings instrument name content, settings.check = .ok () →
      (r.opening settings instrument name content).StaysValid (r.stage instrument)) ∧
    (r.plugins = ∅ → ∀ score : Score,
      (∀ stage m, Opens r (r.plugins.setup {}) score.sections stage m →
        m.scope.settings.check = .ok () ∧ m.StaysValid stage) ∧
      ∀ performances r', (play score).result r = some (.ok performances, r') →
        ∀ p ∈ performances, p.settings.check = .ok ()) := by
  refine ⟨fun settings instrument name content hs ↦ ?_, fun hplugins score ↦ ?_⟩
  · have hstage : (r.stage instrument).repertoire.OnlyStandard := hr
    exact Moment.staysValid_of_symbols hstage hs rfl
  · -- Without plugins a score begins with the default settings.
    have hglobal : (r.plugins.setup {}).Valid := by
      rw [hplugins]
      exact Settings.valid_default
    refine ⟨fun stage m h ↦ h.valid hr hglobal, fun performances r' h p hmem ↦ ?_⟩
    rw [play, result_get_bind] at h
    exact Settings.check_eq_ok.mpr (valid_of_playSections hr hglobal h p hmem)

namespace Tuned

def prolog : List Call := [⟨"Speed", [.number 120]⟩, ⟨"Speed", [.number (-1)]⟩]

def content : List Symbol :=
  [.call "Transpose" [.number 2, .symbol (.phrase (-1) [.call "Oct" [.number 1]])]]

def score : Score where
  sections := [{ prolog, tracks := [{ content }] }]

end Tuned

theorem settings_stay_valid_tuned :
    (Repertoire.standard.opening {} {} none Tuned.content).StaysValid
      (Repertoire.standard.stage {}) ∧
    (calling Repertoire.standard {} Tuned.prolog).StaysValid ⟨Repertoire.standard, ∅⟩ ∧
    ∃ performances r', (play Tuned.score).result Repertoire.standard = some (.ok performances, r') ∧
      performances.map (·.settings.speed) = [120] ∧
      ∀ p ∈ performances, p.settings.check = .ok () := by
  obtain ⟨hstarted, hplayed⟩ := settings_stay_valid Repertoire.onlyStandard_standard
  obtain ⟨hopened, hperformed⟩ := hplayed rfl Tuned.score
  refine ⟨hstarted {} {} none _ (by decide +kernel), (hopened _ _ .prolog).2, ?_⟩
  have hspeeds : ((play Tuned.score).result Repertoire.standard).map
      (fun x ↦ x.1.map fun performances ↦ performances.map (·.settings.speed)) =
      some (.ok [120]) := by
    decide +kernel
  obtain ⟨⟨fault | performances, r'⟩, hresult, hspeeds⟩ := Option.map_eq_some_iff.mp hspeeds
  · cases hspeeds
  · exact ⟨performances, r', hresult, Except.ok.inj hspeeds, hperformed _ _ hresult⟩

end Concert

end Rendition
