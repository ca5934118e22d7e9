import Rendition.Play.Performance
import Rendition.Proofs.Play.Moment
import Rendition.Proofs.Play.Numbering

namespace Rendition

namespace Moment

variable {stage : Stage} {m m₁ : Moment} {s' : Session}

/-- Each event started from a moment on is started by a note under it, and has been moved once by
each of the passages that have begun in between, innermost first. -/
def Placed (stage : Stage) (m : Moment) (s' : Session) : Prop :=
  ∀ id, m.session.events.size ≤ id → id < s'.events.size → ∃ m' inner e, Reached stage m m' ∧
    m'.around = inner ++ m.around ∧ m'.Starts stage id e ∧
    s'.onset? id = some (inner.foldl Scope.shift e.onset)

theorem placed_of_size (h : s'.events.size ≤ m.session.events.size) : Placed stage m s' :=
  fun _ hid hid' ↦ absurd hid' (Nat.not_lt.mpr (Nat.le_trans h hid))

theorem Placed.trans (h : Placed stage m m₁.session) (hr : Reached stage m m₁)
    (ha : m₁.around = m.around) (hext : m₁.session.Extends s') (h' : Placed stage m₁ s') :
    Placed stage m s' := by
  intro id hid hid'
  obtain hlt | hle := Nat.lt_or_ge id m₁.session.events.size
  · obtain ⟨m', inner, e, hm, hin, hst, ho⟩ := h id hid hlt
    exact ⟨m', inner, e, hm, hin, hst, (hext.onset_eq id hlt).trans ho⟩
  · obtain ⟨m', inner, e, hm, hin, hst, ho⟩ := h' id hle hid'
    exact ⟨m', inner, e, hr.trans hm, hin.trans (by rw [ha]), hst, ho⟩

theorem Placed.add {scope outer : Scope} {passage : Passage} {s₁ : Session} (h : Placed stage m₁ s₁)
    (hr : Reached stage m m₁) (ha : m₁.around = outer :: m.around)
    (hs : m₁.session.events.size = m.session.events.size) (hp : scope.progress = outer.progress)
    (hids : Numbering.inOrder.Fits m₁.session.events.size s₁.events.size passage.events) :
    Placed stage m (scope.add stage passage s₁).2 := by
  intro id hid hid'
  change id < (s₁.later _ _ _).events.size at hid'
  rw [Session.size_later] at hid'
  obtain ⟨m', inner, e, hm, hin, hst, ho⟩ := h id (hs ▸ hid) hid'
  refine ⟨m', inner ++ [outer], e, hr.trans hm, ?_, hst, ?_⟩
  · rw [hin, ha, List.append_assoc]
    rfl
  · -- The passage lists all events that it has started, each once, so this one is moved, and moved
    -- once.
    obtain ⟨hle, he⟩ := hids
    have hmem : id ∈ passage.events := by
      rw [he]
      refine List.mem_range'_1.mpr ⟨hs ▸ hid, ?_⟩
      omega
    have hnodup : passage.events.Nodup := he ▸ List.nodup_range'
    change (s₁.later _ _ _).onset? id = _
    rw [Session.onset?_later_of_mem s₁ hnodup hmem, ho, List.foldl_append, Option.map_some, hp]
    rfl

theorem reached_play {depth : Nat} (around : List Scope) {name : String} {access : Access}
    {phrases : List Phrase} {script : Script (Option Passage)} {scope scope' : Scope}
    {s s' : Session} {passage : Passage} (hm : script.Modest phrases)
    (h : (Scope.answer stage (playerOf stage depth) name access script scope).run s =
      some ((.ok (some passage), scope'), s')) :
    scope'.progress = scope.progress ∧ ∃ phrase overrides next,
      Reached stage ⟨depth, around, scope, s, .script name access script⟩
        ⟨depth, around, scope', s, .script name access (.play phrase overrides .full next)⟩ ∧
      outcome (playerOf stage depth (scope'.settings.override overrides) phrase.written.2
        phrase.written.1) s = some (.ok passage, s') := by
  induction hm generalizing scope with
  | done => cases h
  | fail hf => cases h
  | @settings next _ ih =>
    obtain ⟨hp, phrase, overrides, next', hr, hplay⟩ := ih _ h
    exact ⟨hp, phrase, overrides, next', .head (.settings next) hr, hplay⟩
  | @setSettings settings next _ ih =>
    rw [Scope.answer_setSettings] at h
    obtain ⟨hp, phrase, overrides, next', hr, hplay⟩ := ih h
    exact ⟨hp, phrase, overrides, next', .head (.set settings next) hr, hplay⟩
  | @play phrase overrides next hp hnext =>
    rw [Scope.answer_play, Scope.playPhrase_full_run, Option.bind_eq_some_iff] at h
    obtain ⟨⟨r, s₁⟩, hplay, hrest⟩ := h
    dsimp only at hrest
    rw [hnext] at hrest
    cases r with
    | error fault => cases hrest
    | ok passage =>
      cases hrest
      exact ⟨rfl, phrase, overrides, next, .refl, hplay⟩

def PlacesInner (stage : Stage) (depth : Nat) : Prop :=
  ∀ settings remarks symbols s passage s',
    outcome (playerOf stage depth settings remarks symbols) s = some (.ok passage, s') →
    ∃ d, depth = d + 1 ∧ ∀ around,
      Placed stage ⟨d, around, .begin stage s settings remarks, s, .symbols 0 symbols⟩ s'

variable {depth index : Nat} {around : List Scope} {scope scope' : Scope} {s : Session}
  {symbol : Symbol} {symbols rest : List Symbol}

theorem placed_symbol (hr : stage.repertoire.OnlyStandard) (hinner : PlacesInner stage depth)
    (h : outcome ((scope.atIndex index).playSymbol stage (playerOf stage depth) symbol) s =
      some (.ok scope', s')) :
    Placed stage ⟨depth, around, scope, s, .symbols index (symbol :: rest)⟩ s' := by
  have hcounts : (playerOf stage depth).Counts .inOrder := (hr.counts .inOrder).playerOf depth
  have hstep := Scope.step_of_outcome h
  generalize hres : Except.ok scope' = r at hstep
  cases hstep with
  | note note =>
    intro id hid hid'
    rw [Scope.noted_size] at hid'
    obtain ⟨k, rfl⟩ := Nat.exists_eq_add_of_le hid
    have hk : k < (note.fresh stage scope.settings s scope.progress).length :=
      Nat.lt_of_add_lt_add_left hid'
    refine ⟨_, [], _, .refl, rfl, ⟨index, note, rest, k, rfl, rfl, List.getElem?_eq_getElem hk⟩, ?_⟩
    rw [Scope.noted_onset?_add]
    exact congrArg (Option.map Event.onset) (List.getElem?_eq_getElem hk)
  | tie | barLine | marking | inert | active | unknown | formula =>
    exact placed_of_size (Nat.le_refl _)
  | undefined => cases hres
  | phrase times content r s₁ hplay =>
    cases r with
    | error fault => cases hres
    | ok passage =>
      obtain ⟨d, rfl, hplaced⟩ := hinner _ _ _ _ _ _ hplay
      exact (hplaced (scope.atIndex index :: around)).add
        (.single (.phrase times content)) rfl rfl rfl ((hcounts _ _ _ _ _ _ hplay).2 _ rfl)
  | theme name content hc ha r s₁ hplay =>
    cases r with
    | error fault => cases hres
    | ok passage =>
      obtain ⟨d, rfl, hplaced⟩ := hinner _ _ _ _ _ _ hplay
      have hleft : Placed stage _ s₁.leaving := hplaced (scope.atIndex index :: around)
      exact hleft.add (.single (.theme name content hc ha)) rfl rfl rfl
        ((hcounts _ _ _ _ _ _ hplay).2 _ rfl)
  | call name arguments function values hf hv r scope₁ s₁ hrun =>
    by_cases hkept : ∃ passage, r = .ok (some passage)
    · obtain ⟨passage, rfl⟩ := hkept
      obtain ⟨f, hmem, -, rfl⟩ := hr name function hf
      obtain ⟨hp, phrase, overrides, next, hreached, hplay⟩ :=
        reached_play around (Script.modest_standard f hmem name values) hrun
      obtain ⟨d, rfl, hplaced⟩ := hinner _ _ _ _ _ _ hplay
      exact (hplaced (scope₁ :: around)).add (.head (.call name arguments _ values hf hv)
        (hreached.tail (.play phrase overrides .full next))) rfl rfl rfl
        ((hcounts _ _ _ _ _ _ hplay).2 _ rfl)
    · -- A standard function that hands nothing over has played nothing.
      obtain ⟨-, hmodestly⟩ := Scope.modestly_of_call hr hf hrun
      have hs : s₁ = s :=
        hmodestly.session_eq (playerOf_endsFatally stage depth) (not_exists.mp hkept)
        fun fault hfault ↦ Scope.not_fatal_of_receive (hfault ▸ hres.symm)
      rw [Scope.receive_snd_of_ne (not_exists.mp hkept), hs]
      exact placed_of_size (Nat.le_refl _)

theorem placed_symbols (hr : stage.repertoire.OnlyStandard) (hinner : PlacesInner stage depth)
    (h : outcome (scope.playFrom stage (playerOf stage depth) index symbols) s =
      some (.ok scope', s')) :
    Placed stage ⟨depth, around, scope, s, .symbols index symbols⟩ s' := by
  induction symbols generalizing index scope s with
  | nil =>
    cases h
    exact placed_of_size (Nat.le_refl _)
  | cons symbol rest ih =>
    rw [Scope.outcome_playFrom_cons, andThen_eq_ok] at h
    obtain ⟨scope₁, s₁, hsymbol, hrest⟩ := h
    have hstage := hr.counts .inOrder
    have hext : s₁.Extends s' :=
      (Scope.counts_playFrom hstage (playerOf_endsFatally stage depth)
        (hstage.playerOf depth) hrest).1
    have hnext : Next stage ⟨depth, around, scope, s, .symbols index (symbol :: rest)⟩
        ⟨depth, around, scope₁, s₁, .symbols (index + 1) rest⟩ := .past hsymbol
    exact (placed_symbol hr hinner hsymbol).trans (.single hnext) rfl hext (ih hrest)

theorem placesInner (hr : stage.repertoire.OnlyStandard) (depth : Nat) :
    PlacesInner stage depth := by
  induction depth with
  | zero =>
    intro settings remarks symbols s passage s' h
    cases h
  | succ depth ih =>
    intro settings remarks symbols s passage s' h
    rw [outcome_playerOf] at h
    obtain ⟨⟨r, s₁⟩, hrun, he⟩ := Option.map_eq_some_iff.mp h
    cases r with
    | error fault => cases he
    | ok scope =>
      cases he
      exact ⟨depth, rfl, fun around ↦ placed_symbols hr ih hrun⟩

end Moment

/-- The plugins leave some part of the events that a note starts. -/
def Plugins.Keep {α : Type} (plugins : Plugins) (part : Event → α) : Prop :=
  ∀ settings events, (plugins.revise settings events).map part = events.map part

def Plugins.KeepOnsets (plugins : Plugins) : Prop := plugins.Keep Event.onset

theorem Note.map_fresh {α : Type} {note : Note} {stage : Stage} {settings : Settings} {s : Session}
    {progress : Progress} {part : Event → α} (hp : stage.repertoire.plugins.Keep part) :
    (note.fresh stage settings s progress).map part = (note.tied stage settings s).2.map fun sound ↦
      part (.ofSound (note.timing settings) progress.duration progress.beatCount sound) := by
  rw [fresh, hp, List.map_map]
  rfl

theorem Note.onset_of_mem_fresh {note : Note} {stage : Stage} {settings : Settings} {s : Session}
    {progress : Progress} {e : Event} (hp : stage.repertoire.plugins.KeepOnsets)
    (h : e ∈ note.fresh stage settings s progress) :
    e.onset = (progress.duration, progress.beatCount) := by
  have hmem : e.onset ∈ (note.fresh stage settings s progress).map Event.onset :=
    List.mem_map_of_mem h
  rw [map_fresh hp] at hmem
  obtain ⟨sound, -, he⟩ := List.mem_map.mp hmem
  exact he.symm

theorem Moment.Starts.onset_eq {stage : Stage} {m : Moment} {id : Nat} {e : Event}
    (h : m.Starts stage id e) (hp : stage.repertoire.plugins.KeepOnsets) :
    e.onset = (m.scope.progress.duration, m.scope.progress.beatCount) := by
  obtain ⟨index, note, rest, k, -, -, hk⟩ := h
  exact Note.onset_of_mem_fresh hp (List.mem_of_getElem? hk)

theorem Session.eventsAt_range (s : Session) :
    s.eventsAt (List.range s.events.size) = s.events.toList := by
  have hlist : ∀ events : List Event, (List.range events.length).filterMap (events[·]?) =
      events := by
    intro events
    induction events with
    | nil => rfl
    | cons e rest ih =>
      rw [List.length_cons, List.range_succ_eq_map, List.filterMap_cons, List.filterMap_map]
      exact congrArg (e :: ·) ih
  simpa [eventsAt] using hlist s.events.toList

def Session.opening (name : Option String) : Session := { active := name.toList }

abbrev Repertoire.stage (r : Repertoire) (instrument : Instrument) : Stage :=
  ⟨r, instrument.pitchNames⟩

def Repertoire.opening (r : Repertoire) (settings : Settings) (instrument : Instrument)
    (name : Option String) (content : List Symbol) : Moment :=
  .start (r.stage instrument) settings (instrument.opening ++ content) (.opening name)

variable {r : Repertoire} {settings : Settings} {instrument : Instrument} {id : String}
  {name : Option String} {content : List Symbol} {performance : Performance}

theorem perform_ok (h : perform r settings instrument id name content = some (.ok performance)) :
    ∃ last passage s', outcome (playTrack (r.stage instrument) settings
        (instrument.opening ++ content)) (.opening name) = some (.ok (last, passage), s') ∧
      ∃ p : Performance, performance = r.plugins.complete p ∧
      p.events = s'.eventsAt passage.events := by
  obtain ⟨⟨answer, s'⟩, hrun, he⟩ := Option.map_eq_some_iff.mp h
  cases answer with
  | error fault => cases he
  | ok played =>
    cases he
    exact ⟨played.1, played.2, s', hrun, _, rfl, rfl⟩

theorem playerOf_ok {stage : Stage} {depth : Nat} {remarks : List Remark} {symbols : List Symbol}
    {s s' : Session} {passage : Passage}
    (h : outcome (playerOf stage depth settings remarks symbols) s = some (.ok passage, s')) :
    ∃ inner scope, depth = inner + 1 ∧
      outcome ((Scope.begin stage s settings remarks).playFrom stage (playerOf stage inner) 0
        symbols) s = some (.ok scope, s') ∧ passage = scope.conclude s' := by
  cases depth with
  | zero => cases h
  | succ inner =>
    rw [outcome_playerOf] at h
    obtain ⟨⟨answer, s₁⟩, hrun, he⟩ := Option.map_eq_some_iff.mp h
    cases answer with
    | error fault => cases he
    | ok scope =>
      cases he
      exact ⟨inner, scope, rfl, hrun, rfl⟩

theorem playTrack_ok {stage : Stage} {symbols : List Symbol} {s s' : Session} {last : Settings}
    {passage : Passage}
    (h : outcome (playTrack stage settings symbols) s = some (.ok (last, passage), s')) :
    ∃ scope, outcome ((Scope.enter stage settings s false).playFrom stage
        (playerOf stage (stage.repertoire.depthOf symbols)) 0 symbols) s = some (.ok scope, s') ∧
      last = scope.settings ∧ passage = scope.conclude s' := by
  rw [outcome_playTrack] at h
  obtain ⟨⟨answer, s₁⟩, hrun, he⟩ := Option.map_eq_some_iff.mp h
  cases answer with
  | error fault => cases he
  | ok scope =>
    cases he
    exact ⟨scope, hrun, rfl, rfl⟩

/-- What is known of a performance of standard functions: its events are all that the session has
kept, each once and in the order in which they were started, and each is placed by the clocks of the
passages it lies in. -/
theorem perform_places_each_event_once (hr : r.OnlyStandard)
    (h : perform r settings instrument id name content = some (.ok performance)) :
    ∃ last passage s', outcome (playTrack (r.stage instrument) settings
        (instrument.opening ++ content)) (.opening name) = some (.ok (last, passage), s') ∧
      passage.events = List.range s'.events.size ∧
      (∃ p : Performance, performance = r.plugins.complete p ∧
        p.events = s'.eventsAt passage.events ∧
        p.events = s'.events.toList) ∧
      ∀ i < s'.events.size, ∃ m e,
        Moment.Reached (r.stage instrument) (r.opening settings instrument name content) m ∧
        m.Starts (r.stage instrument) i e ∧
        s'.onset? i = some (m.around.foldl Scope.shift e.onset) ∧
        (r.plugins.KeepOnsets →
          e.onset = (m.scope.progress.duration, m.scope.progress.beatCount)) := by
  have hstandard : (r.stage instrument).repertoire.OnlyStandard := hr
  obtain ⟨last, passage, s', hplay, p, hp, he⟩ := perform_ok h
  obtain ⟨scope, hrun, -, rfl⟩ := playTrack_ok hplay
  have hrange : (scope.conclude s').events = List.range s'.events.size := by
    have hcounts := hstandard.counts .inOrder
    obtain ⟨-, hids⟩ :=
      Scope.counts_playFrom hcounts (playerOf_endsFatally _ _) (hcounts.playerOf _) hrun
    obtain ⟨ids, hevents, -, rfl⟩ := hids scope rfl
    rw [Scope.conclude_events, hevents, List.range_eq_range']
    rfl
  refine ⟨last, _, s', hplay, hrange, ⟨p, hp, he, ?_⟩, fun i hi ↦ ?_⟩
  · rw [he, hrange, Session.eventsAt_range]
  · have hplaced : Moment.Placed _ (r.opening settings instrument name content) s' :=
      Moment.placed_symbols hstandard (Moment.placesInner hstandard _) hrun
    obtain ⟨m, inner, e, hreached, haround, hstarts, honset⟩ := hplaced i (Nat.zero_le i) hi
    obtain rfl : m.around = inner := haround.trans (List.append_nil inner)
    exact ⟨m, e, hreached, hstarts, honset, hstarts.onset_eq⟩

theorem exists_performance {β : Type} {x : Option (Except Fault Performance)}
    {f : Performance → β} {b : β} (h : (x.bind Except.toOption).map f = some b) :
    ∃ performance, x = some (.ok performance) ∧ f performance = b := by
  match x, h with
  | some (.ok performance), h => exact ⟨performance, rfl, Option.some.inj h⟩

theorem perform_places_each_event_once_nested : ∃ performance s', perform
    { Repertoire.standard with
      themes := .ofList [("A", [.note { pitches := [{ degree := .scale 3 }] }])] } {} {} "" none
      [.note { pitches := [{ degree := .scale 1 }] },
        .phrase (-1) [.note { pitches := [{ degree := .scale 2 }] }, .theme "A"]] =
        some (.ok performance) ∧
    performance.events = Array.toList (Session.events s') ∧
    performance.events.map Event.onset = [(0, 0), (1, 1), (2, 2)] := by
  have hstandard : Repertoire.OnlyStandard { Repertoire.standard with
      themes := .ofList [("A", [.note { pitches := [{ degree := .scale 3 }] }])] } :=
        Repertoire.onlyStandard_standard
  obtain ⟨performance, hp, honsets⟩ := exists_performance (f := fun p ↦ p.events.map Event.onset)
    (b := [(0, 0), (1, 1), (2, 2)])
    (x := perform
      { Repertoire.standard with
        themes := .ofList [("A", [.note { pitches := [{ degree := .scale 3 }] }])] } {} {} "" none
      [.note { pitches := [{ degree := .scale 1 }] },
        .phrase (-1) [.note { pitches := [{ degree := .scale 2 }] }, .theme "A"]])
    (by decide +kernel)
  obtain ⟨last, passage, s', -, -, ⟨p, rfl, -, he⟩, -⟩ :=
    perform_places_each_event_once hstandard hp
  exact ⟨_, s', hp, he, honsets⟩

end Rendition
