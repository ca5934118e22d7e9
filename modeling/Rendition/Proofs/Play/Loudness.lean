import Mathlib.Data.List.Basic
import Rendition.Proofs.Play.Nesting
import Rendition.Proofs.Score.Editing

namespace Rendition

def Event.amplify (factors : List Float) (e : Event) : Event :=
  { e with volume := factors.foldl (· * ·) e.volume }

/-- A plugin that does nothing but multiply the volume of each event that a note starts. -/
def Plugin.boost (factor : Float) : Plugin where
  revise _ events := events.map (Event.amplify [factor])
  revise_length _ _ := List.length_map _

/-- Factors by the names of the plugins that apply them, in their order. -/
abbrev Boosts := Table String Float

namespace Boosts

variable (boosts : Boosts)

def factors : List Float := boosts.entries.map Prod.snd

def plugins : Plugins := boosts.map Plugin.boost

theorem collect_plugins (passage : Passage) (marks : Marks) :
    boosts.plugins.collect passage marks = marks := by
  unfold Plugins.collect plugins Table.map
  rw [List.foldl_map]
  exact List.foldl_fixed' (fun _ ↦ rfl) _

theorem complete_plugins (performance : Performance) :
    boosts.plugins.complete performance = performance := by
  unfold Plugins.complete plugins Table.map
  rw [List.foldl_map]
  exact List.foldl_fixed' (fun _ ↦ rfl) _

theorem revise_plugins (settings : Settings) (events : List Event) :
    boosts.plugins.revise settings events = events.map (Event.amplify boosts.factors) := by
  unfold Plugins.revise plugins Table.map factors
  generalize boosts.entries = entries
  induction entries generalizing events with
  | nil => exact (List.map_id events).symm
  | cons boost rest ih =>
    rw [List.map_cons, List.foldl_cons, ih]
    exact List.map_map

end Boosts

namespace Repertoire

variable (r : Repertoire)

def unplugged : Repertoire := { r with plugins := ∅ }

def addBoosts (boosts : List (String × Float)) : Repertoire :=
  boosts.foldl (fun r g ↦ r.addPlugin g.1 (.boost g.2)) r

def amplified (boosts : Boosts) : Repertoire := { r with plugins := boosts.plugins }

theorem addBoosts_eq (boosts : List (String × Float)) :
    r.unplugged.addBoosts boosts = r.amplified (.ofList boosts) := by
  have hadd (table : Boosts) : (r.amplified table).addBoosts boosts =
      r.amplified (boosts.foldl (fun table g ↦ table.insert g.1 g.2) table) := by
    induction boosts generalizing table with
    | nil => rfl
    | cons g rest ih =>
      have hg : (r.amplified table).addPlugin g.1 (.boost g.2) =
          r.amplified (table.insert g.1 g.2) :=
        congrArg (fun plugins ↦ { r with plugins }) (Table.insert_map Plugin.boost table g.1 g.2)
      rw [addBoosts, List.foldl_cons, hg]
      exact ih _
  exact hadd ∅

end Repertoire

abbrev Stage.amplified (stage : Stage) (boosts : Boosts) : Stage :=
  { stage with repertoire := stage.repertoire.amplified boosts }

namespace Session

variable (factors : List Float)

def amplify (s : Session) : Session := { s with events := s.events.map (Event.amplify factors) }

theorem revise_amplify (s : Session) (id : Nat) {f : Event → Event}
    (hf : ∀ e, f (e.amplify factors) = (f e).amplify factors) :
    (s.amplify factors).revise id f = (s.revise id f).amplify factors := by
  simp only [revise, amplify, modify_map hf]

theorem later_amplify (s : Session) (ids : List Nat) (time beats : Float) :
    (s.amplify factors).later ids time beats = (s.later ids time beats).amplify factors :=
  List.foldl_hom (amplify factors) fun s id ↦ s.revise_amplify factors id fun _ ↦ rfl

theorem record_amplify (s : Session) (tones : List Tone) :
    (s.amplify factors).record tones = (s.record tones).amplify factors := by
  unfold record
  split <;> rfl

/-- Which sounds a tie takes hangs on the volumes of the pending sounds, not on those of their
events. -/
theorem tieOver_amplify (s : Session) (timing : Timing) (sounds : List Sound) :
    (s.amplify factors).tieOver timing sounds =
      ((s.tieOver timing sounds).1.amplify factors, (s.tieOver timing sounds).2) := by
  have hprolong (ties : List Pending) :
      ties.foldl (fun s tie ↦ s.revise tie.event (·.prolong timing)) (s.amplify factors) =
        (ties.foldl (fun s tie ↦ s.revise tie.event (·.prolong timing)) s).amplify factors :=
    List.foldl_hom (amplify factors) fun s tie ↦ s.revise_amplify factors tie.event fun _ ↦ rfl
  have hleft : (s.amplify factors).tieLeft = s.tieLeft := rfl
  have hpending : (s.amplify factors).pending = s.pending := rfl
  unfold tieOver
  rw [hleft, hpending]
  split
  · simp only [hprolong]
    rfl
  · rfl

theorem startAll_amplify (s : Session) (events : List Event) :
    (s.amplify factors).startAll (events.map (Event.amplify factors)) =
      ((s.startAll events).1.amplify factors, (s.startAll events).2) := by
  have hstart : (events.map (Event.amplify factors)).foldl start (s.amplify factors) =
      (events.foldl start s).amplify factors := by
    rw [List.foldl_map]
    refine List.foldl_hom (amplify factors) ?_
    intro s e
    simp only [start, amplify, Array.map_push]
  simp only [startAll, hstart, List.length_map]
  simp only [amplify, Array.size_map]

theorem eventsAt_amplify (s : Session) (ids : List Nat) :
    (s.amplify factors).eventsAt ids = (s.eventsAt ids).map (Event.amplify factors) := by
  unfold eventsAt
  rw [List.map_filterMap]
  refine List.filterMap_congr ?_
  intro id _
  exact Array.getElem?_map

theorem lend_amplify (s : Session) (access : Access) :
    access.lend (s.amplify factors) = (access.lend s).amplify factors := by
  cases access <;> rfl

end Session

def Performance.amplify (factors : List Float) (performance : Performance) : Performance :=
  { performance with events := performance.events.map (Event.amplify factors) }

section Run

variable {stage : Stage} (hp : stage.repertoire.plugins = ∅) (boosts : Boosts)

def amplifyAfter {α : Type} (x : α × Session) : α × Session := (x.1, x.2.amplify boosts.factors)

include hp in
theorem Note.play_amplify (note : Note) (settings : Settings) (s : Session) (progress : Progress) :
    note.play (stage.amplified boosts) settings (s.amplify boosts.factors) progress =
      ((note.play stage settings s progress).1,
        (note.play stage settings s progress).2.1.amplify boosts.factors,
        (note.play stage settings s progress).2.2) := by
  have hread : note.read (stage.amplified boosts) settings (s.amplify boosts.factors).trace =
      note.read stage settings s.trace := rfl
  have hrevise (events : List Event) :
      (stage.amplified boosts).repertoire.plugins.revise settings events =
      events.map (Event.amplify boosts.factors) := boosts.revise_plugins settings events
  have hplain (events : List Event) : stage.repertoire.plugins.revise settings events = events := by
    rw [hp]
    rfl
  unfold play
  dsimp only
  rw [hread, Session.record_amplify, Session.tieOver_amplify]
  rcases (s.record (note.read stage settings s.trace).tones).tieOver (note.timing settings)
    (note.read stage settings s.trace).sounds with ⟨s₁, tied, sounds⟩
  dsimp only
  rw [hrevise, hplain, Session.startAll_amplify]
  rfl

namespace Scope

variable (scope : Scope) (s : Session)

include hp in
theorem noted_amplify (note : Note) :
    scope.noted (stage.amplified boosts) (s.amplify boosts.factors) note =
    amplifyAfter boosts (scope.noted stage s note) := by
  unfold noted
  rw [note.play_amplify hp boosts]
  rfl

include hp in
theorem add_amplify (passage : Passage) :
    scope.add (stage.amplified boosts) passage (s.amplify boosts.factors) =
      amplifyAfter boosts (scope.add stage passage s) := by
  have habsorb : scope.absorb (stage.amplified boosts) passage = scope.absorb stage passage := by
    have hloud (marks : Marks) :
        (stage.amplified boosts).repertoire.plugins.collect passage marks = marks :=
      boosts.collect_plugins passage marks
    have hplain (marks : Marks) : stage.repertoire.plugins.collect passage marks = marks := by
      rw [hp]
      rfl
    unfold absorb
    dsimp only
    rw [hloud, hplain]
  rw [add, habsorb, Session.later_amplify]
  rfl

include hp in
theorem addEach_amplify (index : Nat) (passages : List Passage) :
    addEach (stage.amplified boosts) index passages scope (s.amplify boosts.factors) =
      amplifyAfter boosts (addEach stage index passages scope s) := by
  induction passages generalizing index scope s with
  | nil => rfl
  | cons passage rest ih =>
    rw [addEach, addEach, add_amplify hp]
    exact ih _ _ _

include hp in
theorem join_amplify (passages : List Passage) :
    scope.join (stage.amplified boosts) passages (s.amplify boosts.factors) =
      amplifyAfter boosts (scope.join stage passages s) := by
  have henter : enter (stage.amplified boosts) scope.settings (s.amplify boosts.factors) true =
      enter stage scope.settings s true := rfl
  unfold join
  rw [henter, addEach_amplify hp]
  rfl

include hp in
theorem take_amplify (r : Except Fault Passage) :
    scope.take (stage.amplified boosts) (s.amplify boosts.factors) r =
      amplifyAfter boosts (scope.take stage s r) := by
  cases r with
  | error fault => rfl
  | ok passage =>
    rw [take, add_amplify hp]
    rfl

include hp in
theorem receive_amplify (name : String) (r : Except Fault (Option Passage)) :
    scope.receive (stage.amplified boosts) (s.amplify boosts.factors) name r =
      amplifyAfter boosts (scope.receive stage s name r) := by
  match r with
  | .ok none | .error (.undefinedTheme ..) | .error (.setting ..) | .error (.argument ..) => rfl
  | .ok (some passage) =>
    rw [receive, add_amplify hp]
    rfl

end Scope

/-- Passages played with the boosts differ only in how loud their events are. -/
def Player.Amplifies (player loud : Player) : Prop :=
  ∀ settings remarks symbols s, outcome (loud settings remarks symbols) (s.amplify boosts.factors) =
    (outcome (player settings remarks symbols) s).map (amplifyAfter boosts)

variable {boosts} {player loud : Player} (hplayer : player.Amplifies boosts loud)
include hp hplayer

namespace Scope

variable (scope : Scope) (s : Session)

theorem answer_amplify {α : Type} (name : String) (access : Access) (script : Script α) :
    (answer (stage.amplified boosts) loud name access script scope).run (s.amplify boosts.factors) =
      ((answer stage player name access script scope).run s).map (amplifyAfter boosts) := by
  induction script generalizing scope s with
  | done | fail => rfl
  | play phrase overrides inner next ih =>
    rw [answer_play, answer_play, playPhrase_run, playPhrase_run, Session.lend_amplify, hplayer]
    cases outcome (player (scope.settings.override overrides) phrase.written.2 phrase.written.1)
      (inner.lend s) with
    | none => rfl
    | some x => exact ih x.1 scope (inner.reclaim s x.2)
  | join passages next ih =>
    rw [answer_join, answer_join, join_amplify hp]
    exact ih _ _ _
  | remark message next ih => exact ih _ _
  | settings next ih => exact ih _ _ _
  | setSettings settings next ih => exact ih _ _
  | trace next ih => exact ih _ _ _
  | record entry next ih =>
    rw [answer_record, answer_record, ← ih]
    cases access <;> rfl
  | progress next ih => exact ih _ _ _

theorem playSymbol_amplify (symbol : Symbol) :
    outcome (scope.playSymbol (stage.amplified boosts) loud symbol) (s.amplify boosts.factors) =
      (outcome (scope.playSymbol stage player symbol) s).map (amplifyAfter boosts) := by
  have htake (before : Session → Session) (hbefore : ∀ s, (before (s.amplify boosts.factors)) =
      (before s).amplify boosts.factors) (played : Option (Except Fault Passage × Session)) :
      (played.map (amplifyAfter boosts)).map (fun x ↦
        scope.take (stage.amplified boosts) (before x.2) x.1) =
        (played.map fun x ↦ scope.take stage (before x.2) x.1).map (amplifyAfter boosts) := by
    cases played with
    | none => rfl
    | some x =>
      refine congrArg some ?_
      dsimp only [amplifyAfter]
      rw [hbefore]
      exact scope.take_amplify hp boosts _ x.1
  cases symbol with
  | note written =>
    rw [outcome_note, outcome_note, noted_amplify hp]
    rfl
  | tie | barLine | marking | clef | comment | space => rfl
  | phrase times content =>
    rw [outcome_phrase, outcome_phrase, playRepeated, hplayer]
    exact htake id (fun _ ↦ rfl) _
  | theme name =>
    have hthemes : (stage.amplified boosts).repertoire.themes = stage.repertoire.themes := rfl
    cases hc : stage.repertoire.themes.find? name with
    | none =>
      rw [outcome_theme_none _ _ _ _ hc, outcome_theme_none _ _ _ _ (hthemes ▸ hc)]
      rfl
    | some content =>
      by_cases ha : name ∈ s.active
      · have ha' : name ∈ (s.amplify boosts.factors).active := ha
        rw [outcome_theme_active _ _ _ hc ha, outcome_theme_active _ _ _ (hthemes ▸ hc) ha']
        rfl
      · have ha' : name ∉ (s.amplify boosts.factors).active := ha
        have hentering : (s.amplify boosts.factors).entering name =
            (s.entering name).amplify boosts.factors := rfl
        rw [outcome_theme _ _ _ hc ha, outcome_theme _ _ _ (hthemes ▸ hc) ha', playRepeated,
          playRepeated, hentering, hplayer]
        exact htake Session.leaving (fun _ ↦ rfl) _
  | call name arguments =>
    have hfunctions : (stage.amplified boosts).repertoire.functions = stage.repertoire.functions :=
      rfl
    cases hf : stage.repertoire.functions.find? name with
    | none =>
      rw [outcome_call_none _ _ _ _ _ hf, outcome_call_none _ _ _ _ _ (hfunctions ▸ hf)]
      rfl
    | some function =>
      cases hv : arguments.mapM Value.ofArgument with
      | error e =>
        rw [outcome_call_error _ _ _ _ hf hv, outcome_call_error _ _ _ _ (hfunctions ▸ hf) hv]
        rfl
      | ok values =>
        rw [outcome_call _ _ _ _ hf hv, outcome_call _ _ _ _ (hfunctions ▸ hf) hv,
          answer_amplify hp hplayer]
        cases (answer stage player name function.access (function.body name values)
          scope).run s with
        | none => rfl
        | some x => exact congrArg some (x.1.2.receive_amplify hp boosts x.2 name x.1.1)

theorem playFrom_amplify (index : Nat) (symbols : List Symbol) :
    outcome (scope.playFrom (stage.amplified boosts) loud index symbols)
      (s.amplify boosts.factors) =
      (outcome (scope.playFrom stage player index symbols) s).map (amplifyAfter boosts) := by
  induction symbols generalizing index scope s with
  | nil => rfl
  | cons symbol rest ih =>
    rw [outcome_playFrom_cons, outcome_playFrom_cons, playSymbol_amplify hp hplayer]
    rcases outcome ((scope.atIndex index).playSymbol stage player symbol)
      s with - | ⟨fault | scope', s'⟩
    · rfl
    · rfl
    · exact ih _ _ _

end Scope

omit hplayer in
theorem playerOf_amplifies (depth : Nat) :
    (playerOf stage depth).Amplifies boosts (playerOf (stage.amplified boosts) depth) := by
  induction depth with
  | zero =>
    intro settings remarks symbols s
    rfl
  | succ depth ih =>
    intro settings remarks symbols s
    have hbegin : Scope.begin (stage.amplified boosts) (s.amplify boosts.factors) settings remarks =
        .begin stage s settings remarks := rfl
    rw [outcome_playerOf, outcome_playerOf, hbegin, Scope.playFrom_amplify hp ih, Option.map_map,
      Option.map_map]
    rfl

omit hplayer in
theorem playTrack_amplify (settings : Settings) (symbols : List Symbol) (s : Session) :
    outcome (playTrack (stage.amplified boosts) settings symbols) (s.amplify boosts.factors) =
      (outcome (playTrack stage settings symbols) s).map (amplifyAfter boosts) := by
  have henter : Scope.enter (stage.amplified boosts) settings (s.amplify boosts.factors) false =
      .enter stage settings s false := rfl
  have hdepth : (stage.amplified boosts).repertoire.depthOf symbols =
      stage.repertoire.depthOf symbols := rfl
  rw [outcome_playTrack, outcome_playTrack, henter, hdepth,
    Scope.playFrom_amplify hp (playerOf_amplifies hp _), Option.map_map, Option.map_map]
  rfl

end Run

/-- Boosts multiply the volume of each event by their factors, in the order in which their names
came first, and change nothing else: neither the rest of the track nor what its passages share. -/
theorem perform_addBoosts (r : Repertoire) (boosts : List (String × Float)) (settings : Settings)
    (instrument : Instrument) (id : String) (name : Option String) (content : List Symbol) :
    perform (r.unplugged.addBoosts boosts) settings instrument id name content =
        (perform r.unplugged settings instrument id name content).map
          (Except.map (Performance.amplify (Boosts.factors (.ofList boosts)))) ∧
      outcome (playTrack ((r.unplugged.addBoosts boosts).stage instrument) settings
        (instrument.opening ++ content))
          (.opening name) =
        (outcome (playTrack (r.unplugged.stage instrument) settings (instrument.opening ++ content))
          (.opening name)).map (amplifyAfter (.ofList boosts)) := by
  have hopening : (Session.opening name).amplify (Boosts.factors (.ofList boosts)) =
      .opening name := by
    simp [Session.amplify, Session.opening]
  have hplugins : (r.unplugged.stage instrument).repertoire.plugins = ∅ := rfl
  have hplayed :
      outcome (playTrack ((r.unplugged.stage instrument).amplified (.ofList boosts)) settings
        (instrument.opening ++ content)) ((Session.opening name).amplify
        (Boosts.factors (.ofList boosts))) = _ :=
    playTrack_amplify hplugins settings (instrument.opening ++ content) (.opening name)
  rw [hopening] at hplayed
  rw [r.addBoosts_eq]
  refine ⟨?_, hplayed⟩
  have hcomplete (played : Performance) :
      (Boosts.plugins (.ofList boosts)).complete played = played :=
    Boosts.complete_plugins _ played
  rw [perform_eq, perform_eq]
  change Option.map _ (outcome
    (playTrack ((r.unplugged.stage instrument).amplified (.ofList boosts)) _ _) _) = _
  rw [hplayed, Option.map_map, Option.map_map]
  refine congrArg (Option.map · _) (funext ?_)
  rintro ⟨fault | ⟨last, passage⟩, s⟩
  · rfl
  · refine congrArg Except.ok ((hcomplete _).trans ?_)
    simp only [amplifyAfter, Session.eventsAt_amplify]
    rfl

end Rendition
