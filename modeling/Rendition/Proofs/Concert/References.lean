import Rendition.Concert
import Rendition.Proofs.Play.Undefined

namespace Rendition

variable {α β : Type}

namespace Repertoire

def introduce (r : Repertoire) (track : Track) : Repertoire :=
  match track.name with
  | some name => r.defineTheme name track.content
  | none => r

theorem introduce_functions (r : Repertoire) (track : Track) :
    (r.introduce track).functions = r.functions := by
  unfold introduce
  cases track.name <;> rfl

end Repertoire

namespace Concert

def result (concert : Concert α) (r : Repertoire) : Option (Except Fault α × Repertoire) :=
  concert.run.run r

theorem result_bind (concert : Concert α) (next : α → Concert β) (r : Repertoire) :
    (concert >>= next).result r = (concert.result r).bind fun x ↦ match x.1 with
      | .ok a => (next a).result x.2
      | .error fault => some (.error fault, x.2) := by
  change (ExceptT.run concert r).bind _ = _
  unfold result
  rcases h : ExceptT.run concert r with - | ⟨fault | a, r'⟩ <;> simp only [StateT.run, h] <;> rfl

theorem result_get_bind (next : Repertoire → Concert β) (r : Repertoire) :
    (get >>= next).result r = (next r).result r := rfl

theorem result_applyCalls (settings : Settings) (calls : List Call) (r : Repertoire) :
    (applyCalls settings calls).result r =
      (outcome ((Scope.enter ⟨r, ∅⟩ settings {} false).playFrom ⟨r, ∅⟩
        (playerOf ⟨r, ∅⟩ (r.depthOf (calls.map Call.symbol))) 0 (calls.map Call.symbol)) {}).map
          fun x ↦ (x.1.map fun scope ↦ (scope.settings, scope.remarks), r) := by
  rw [applyCalls, result_get_bind]
  dsimp only
  unfold outcome
  split
  next h => rw [h]; rfl
  next scope s h => rw [h]; rfl
  next fault s h => rw [h]; rfl

def performing (settings : Settings) (instrument : Instrument) (id : String) (track : Track) :
    Concert Performance :=
  fun r ↦ (perform r settings instrument id track.name track.content).map (·, r)

theorem result_playInstruments_cons (settings : Settings) (track : Track) (instrument : Instrument)
    (rest : List Instrument) (counts : Counts) (r : Repertoire) :
    (playInstruments settings track (instrument :: rest) counts).result r =
      (do
        let count := (counts.find? instrument.name).getD 0 + 1
        let performance ← performing settings instrument (trackId track instrument count) track
        let (performances, counts) ← playInstruments settings track rest
          (counts.insert instrument.name count)
        return (performance :: performances, counts) :
          Concert (List Performance × Counts)).result r := by
  rw [playInstruments, result_get_bind, result_bind]
  change _ = Option.bind (Option.map _ (perform r _ _ _ _ _)) _
  rcases perform r settings instrument
    (trackId track instrument ((counts.find? instrument.name).getD 0 + 1)) track.name
    track.content with - | ⟨fault | performance⟩ <;> rfl

def introducing (track : Track) : Concert Unit := fun r ↦ some (.ok (), r.introduce track)

theorem result_playTracks_cons (settings : Settings) (track : Track) (rest : List Track)
    (counts : Counts) (r : Repertoire) :
    (playTracks settings (track :: rest) counts).result r =
      (do
        introducing track
        let (performances, counts) ← playInstruments settings track track.players counts
        return performances ++ (← playTracks settings rest counts) :
          Concert (List Performance)).result r := by
  rw [playTracks, result_bind (introducing track)]
  change _ = (_ : Concert (List Performance)).result (r.introduce track)
  unfold Repertoire.introduce
  cases track.name with
  | none => rfl
  | some name => rfl

/-- A property of the smallest concerts, and of those put together from concerts that have it. -/
structure Composes (Q : {α : Type} → Concert α → Prop) : Prop where
  congr : ∀ {α : Type} {concert concert' : Concert α}, (∀ r, concert.result r = concert'.result r) →
    Q concert' →
    Q concert
  pure : ∀ {α : Type} (a : α), Q (Pure.pure a)
  bind : ∀ {α β : Type} {concert : Concert α} {next : α → Concert β}, Q concert →
    (∀ a, Q (next a)) →
    Q (concert >>= next)
  applyCalls : ∀ settings calls, Q (applyCalls settings calls)
  performing : ∀ settings instrument id track, Q (performing settings instrument id track)
  introducing : ∀ track, Q (introducing track)

namespace Composes

variable {Q : {α : Type} → Concert α → Prop} (hq : Composes Q)
include hq

theorem playInstruments (settings : Settings) (track : Track) (instruments : List Instrument)
    (counts : Counts) :
    Q (playInstruments settings track instruments counts) := by
  induction instruments generalizing counts with
  | nil => exact hq.pure _
  | cons instrument rest ih =>
    refine hq.congr (result_playInstruments_cons settings track instrument rest counts) ?_
    exact hq.bind (hq.performing _ _ _ _) fun _ ↦ hq.bind (ih _) fun _ ↦ hq.pure _

theorem playTracks (settings : Settings) (tracks : List Track) (counts : Counts) :
    Q (playTracks settings tracks counts) := by
  induction tracks generalizing counts with
  | nil => exact hq.pure _
  | cons track rest ih =>
    refine hq.congr (result_playTracks_cons settings track rest counts) ?_
    exact hq.bind (hq.introducing track) fun _ ↦ hq.bind (hq.playInstruments _ _ _ _) fun _ ↦
      hq.bind (ih _) fun _ ↦ hq.pure _

theorem playSection (global : Settings) (s : Section) : Q (playSection global s) := by
  refine hq.bind (hq.applyCalls _ _) fun prolog ↦ hq.bind (hq.applyCalls _ _) fun settings ↦
    hq.bind (hq.playTracks _ _ _) fun tracks ↦ ?_
  dsimp only
  split <;> exact hq.pure _

theorem playSections (global : Settings) (sections : List Section) :
    Q (playSections global sections) := by
  induction sections generalizing global with
  | nil => exact hq.pure _
  | cons s rest ih =>
    exact hq.bind (hq.playSection _ _) fun played ↦ hq.bind (ih _) fun _ ↦ hq.pure _

end Composes

/-- Begun with functions that relay faults, a concert leaves such. Only the fault of a theme that
the repertoire does not have then can end it. -/
def EndsUndefined (concert : Concert α) : Prop :=
  ∀ r x r', r.Relays → concert.result r = some (x, r') →
    r'.Relays ∧ ∀ fault, x = .error fault → fault.Undefined r'.themes

namespace EndsUndefined

theorem bind {concert : Concert α} {next : α → Concert β} (h : concert.EndsUndefined)
    (hn : ∀ a, (next a).EndsUndefined) : (concert >>= next).EndsUndefined := by
  intro r x r' hr hx
  rw [result_bind, Option.bind_eq_some_iff] at hx
  obtain ⟨⟨y, r₁⟩, hy, hrest⟩ := hx
  obtain ⟨hr₁, hfault⟩ := h r y r₁ hr hy
  cases y with
  | ok a => exact hn a r₁ x r' hr₁ hrest
  | error fault =>
    cases hrest
    refine ⟨hr₁, ?_⟩
    rintro _ ⟨⟩
    exact hfault fault rfl

theorem pure (a : α) : EndsUndefined (Pure.pure a) := by
  intro r x r' hr hx
  cases hx
  exact ⟨hr, nofun⟩

theorem applyCalls (settings : Settings) (calls : List Call) :
    (applyCalls settings calls).EndsUndefined := by
  intro r x r' hr hx
  have hstage : (Stage.mk r ∅).repertoire.Relays := hr
  rw [result_applyCalls, Option.map_eq_some_iff] at hx
  obtain ⟨⟨y, s⟩, hy, he⟩ := hx
  cases he
  refine ⟨hr, ?_⟩
  intro fault he
  cases y with
  | ok scope => cases he
  | error fault' =>
    obtain rfl := Except.error.inj he
    exact Scope.playFrom_undefined hstage (playerOf_endsUndefined hstage _) hy

theorem performing (settings : Settings) (instrument : Instrument) (id : String) (track : Track) :
    (performing settings instrument id track).EndsUndefined := by
  intro r x r' hr hx
  obtain ⟨y, hy, he⟩ := Option.map_eq_some_iff.mp hx
  cases he
  refine ⟨hr, ?_⟩
  rintro fault rfl
  exact perform_undefined hr hy

theorem composes : Composes EndsUndefined where
  congr h hq r x r' hr hx := hq r x r' hr (h r ▸ hx)
  pure := pure
  bind := bind
  applyCalls := applyCalls
  performing := performing
  introducing track := by
    intro r x r' hr hx
    cases hx
    rw [Repertoire.Relays, Repertoire.introduce_functions]
    exact ⟨hr, nofun⟩

theorem play (score : Score) : (play score).EndsUndefined := by
  intro r x r' hr hx
  rw [Concert.play, result_get_bind] at hx
  exact composes.playSections _ _ r x r' hr hx

end EndsUndefined

end Concert

def Track.RefersTo (names : List String) (track : Track) : Prop :=
  Symbol.RefersTo names track.content ∧ ∀ instrument ∈ track.instruments,
    Symbol.RefersTo names instrument.opening

theorem Track.RefersTo.players {names : List String} {track : Track} (h : track.RefersTo names) :
    ∀ instrument ∈ track.players, Symbol.RefersTo names (instrument.opening ++ track.content) := by
  obtain ⟨hcontent, hopenings⟩ := h
  have hplayed : ∀ instrument ∈ track.players, Symbol.RefersTo names instrument.opening := by
    unfold Track.players
    split
    · exact nofun
    · split
      · exact List.forall_mem_singleton.mpr nofun
      · exact hopenings
  intro instrument hmem
  exact Symbol.throughout_append.mpr ⟨hplayed instrument hmem, hcontent⟩

/-- Tracks refer only to the themes named, those that tracks before them define and those that
they define themselves. -/
def tracksReferBack : (names : List String) → List Track → Prop
  | _, [] => True
  | names, track :: rest =>
    track.RefersTo (names ++ track.name.toList) ∧ tracksReferBack (names ++ track.name.toList) rest

def Section.RefersBack (names : List String) (s : Section) : Prop :=
  (∀ call ∈ s.prolog ++ s.settings, Symbol.RefersTo names [call.symbol]) ∧
    tracksReferBack names s.tracks

/-- Sections refer only to the themes named, those of sections before them and, in
their tracks, back. -/
def sectionsReferBack : (names : List String) → List Section → Prop
  | _, [] => True
  | names, s :: rest =>
    s.RefersBack names ∧ sectionsReferBack (names ++ s.tracks.filterMap Track.name) rest

namespace Repertoire

/-- Standard functions, and themes that refer only to one another, among them those named. -/
structure Ready (names : List String) (r : Repertoire) : Prop where
  standard : r.OnlyStandard
  closed : r.Closed
  named : names ⊆ r.themes.keys

theorem keys_introduce (r : Repertoire) (track : Track) :
    r.themes.keys ++ track.name.toList ⊆ (r.introduce track).themes.keys := by
  unfold introduce
  cases track.name with
  | none => simp
  | some name =>
    change _ ⊆ (r.themes.insert name track.content).keys
    rw [Table.keys_insert]
    split
    next h => exact List.append_subset.mpr ⟨List.Subset.refl _, by simpa using h⟩
    next => exact List.Subset.refl _

theorem Ready.introduce {names : List String} {r : Repertoire} {track : Track} (h : r.Ready names)
    (ht : Symbol.RefersTo (names ++ track.name.toList) track.content) :
    (r.introduce track).Ready (names ++ track.name.toList) := by
  have hkeys := r.keys_introduce track
  have hnames : names ++ track.name.toList ⊆ (r.introduce track).themes.keys := fun name hmem ↦
    hkeys (List.append_subset.mpr
      ⟨List.Subset.trans h.named (List.subset_append_left _ _), List.subset_append_right _ _⟩ hmem)
  refine ⟨?_, ?_, hnames⟩
  · rw [OnlyStandard, introduce_functions]
    exact h.standard
  · intro name content hc
    have hold (hc : r.themes.find? name = some content) :
        Symbol.RefersTo (r.introduce track).themes.keys content :=
      (h.closed name content hc).mono (List.Subset.trans (List.subset_append_left _ _) hkeys)
    -- Other themes may have referred to one of the same name; they find the new content then.
    unfold Repertoire.introduce at hc
    split at hc
    next title htitle =>
      rw [defineTheme, Table.find?_insert] at hc
      split at hc
      · obtain rfl := Option.some.inj hc
        exact ht.mono hnames
      · exact hold hc
    next => exact hold hc

end Repertoire

namespace Concert

def Completes (names names' : List String) (concert : Concert α) : Prop :=
  ∀ r : Repertoire, r.Ready names → ∃ a r', concert.result r = some (.ok a, r') ∧ r'.Ready names'

namespace Completes

variable {names names' names'' : List String}

theorem bind {concert : Concert α} {next : α → Concert β} (h : concert.Completes names names')
    (hn : ∀ a, (next a).Completes names' names'') : (concert >>= next).Completes names names'' := by
  intro r hr
  obtain ⟨a, r₁, ha, hr₁⟩ := h r hr
  rw [result_bind, ha]
  exact hn a r₁ hr₁

theorem pure (a : α) : (Pure.pure a : Concert α).Completes names names := fun r hr ↦ ⟨a, r, rfl, hr⟩

theorem applyCalls (settings : Settings) {calls : List Call}
    (hc : ∀ call ∈ calls, Symbol.RefersTo names [call.symbol]) :
    (applyCalls settings calls).Completes names names := by
  intro r hr
  have hstandard : (Stage.mk r ∅).repertoire.OnlyStandard := hr.standard
  have hclosed : (Stage.mk r ∅).repertoire.Closed := hr.closed
  have hcalls : Symbol.RefersTo r.themes.keys (calls.map Call.symbol) := by
    refine Symbol.throughout_iff.mpr (List.forall_mem_map.mpr ?_)
    intro call hmem
    exact Symbol.throughout_singleton.mp ((hc call hmem).mono hr.named)
  rw [result_applyCalls]
  obtain ⟨⟨x, s⟩, hx⟩ : ∃ x, outcome ((Scope.enter ⟨r, ∅⟩ settings {} false).playFrom ⟨r, ∅⟩
      (playerOf ⟨r, ∅⟩ (r.depthOf (calls.map Call.symbol))) 0 (calls.map Call.symbol))
      {} = some x :=
    Scope.playFrom_ends _ hstandard (endsWithin hstandard _) (by
      have := r.themeDepth_le []
      simp only [Repertoire.depthOf]
      omega) 0
  cases x with
  | ok scope =>
    rw [hx]
    exact ⟨_, r, rfl, hr⟩
  | error fault =>
    exact absurd hx (Scope.playFrom_ne_error hstandard hclosed
      (playerOf_completes hstandard hclosed _) hcalls)

theorem performing (settings : Settings) {instrument : Instrument} (id : String) {track : Track}
    (hs : Symbol.RefersTo names (instrument.opening ++ track.content)) :
    (performing settings instrument id track).Completes names names := by
  intro r hr
  obtain ⟨performance, hp⟩ : ∃ performance,
      perform r settings instrument id track.name track.content = some (.ok performance) :=
    exists_performance_of_closed hr.standard hr.closed (hs.mono hr.named)
  refine ⟨performance, r, ?_, hr⟩
  change Option.map _ (perform r _ _ _ _ _) = _
  rw [hp]
  rfl

theorem playInstruments (settings : Settings) {track : Track} {instruments : List Instrument}
    (hs : ∀ instrument ∈ instruments, Symbol.RefersTo names (instrument.opening ++ track.content))
    (counts : Counts) :
    (playInstruments settings track instruments counts).Completes names names := by
  induction instruments generalizing counts with
  | nil => exact pure _
  | cons instrument rest ih =>
    obtain ⟨hfirst, hrest⟩ := List.forall_mem_cons.mp hs
    intro r hr
    rw [result_playInstruments_cons]
    exact ((performing _ _ hfirst).bind fun _ ↦ (ih hrest _).bind fun _ ↦ pure _) r hr

theorem playTracks (settings : Settings) {tracks : List Track} (ht : tracksReferBack names tracks)
    (counts : Counts) :
    (playTracks settings tracks counts).Completes names (names ++ tracks.filterMap Track.name) := by
  induction tracks generalizing names counts with
  | nil =>
    rw [List.filterMap_nil, List.append_nil]
    exact pure _
  | cons track rest ih =>
    obtain ⟨htrack, hrest⟩ := ht
    have hnames : names ++ (track :: rest).filterMap Track.name =
        names ++ track.name.toList ++ rest.filterMap Track.name := by
      cases h : track.name <;> simp [h]
    intro r hr
    rw [result_playTracks_cons, hnames]
    exact ((playInstruments settings htrack.players _).bind fun _ ↦
      (ih hrest _).bind fun _ ↦ pure _) _ (hr.introduce htrack.1)

theorem playSection (global : Settings) {s : Section} (hs : s.RefersBack names) :
    (playSection global s).Completes names (names ++ s.tracks.filterMap Track.name) := by
  obtain ⟨hcalls, htracks⟩ := hs
  obtain ⟨hprolog, hsettings⟩ := List.forall_mem_append.mp hcalls
  refine (applyCalls _ hprolog).bind fun prolog ↦ (applyCalls _ hsettings).bind fun settings ↦
    (playTracks _ htracks _).bind fun tracks ↦ ?_
  dsimp only
  split <;> exact pure _

theorem playSections (global : Settings) {sections : List Section}
    (hs : sectionsReferBack names sections) :
    (playSections global sections).Completes names
      (names ++ sections.flatMap (·.tracks.filterMap Track.name)) := by
  induction sections generalizing global names with
  | nil =>
    rw [List.flatMap_nil, List.append_nil]
    exact pure _
  | cons s rest ih =>
    rw [List.flatMap_cons, ← List.append_assoc]
    exact (playSection global hs.1).bind fun played ↦ (ih _ hs.2).bind fun _ ↦ pure _

end Completes

/-- A theme that is not there is the only thing that ends a concert early, if functions fail only
with faults that are not fatal or are those of passages that they play. There is no such end with
standard functions where themes refer only to one another, and tracks and calls only to those and to
what the score has defined before. -/
theorem play_ends_only_undefined (score : Score) (r : Repertoire) :
    (r.Relays → ∀ fault r', (play score).result r = some (.error fault, r') →
      fault.Undefined r'.themes) ∧
    (r.OnlyStandard → r.Closed → sectionsReferBack r.themes.keys score.sections →
      ∃ performances r', (play score).result r = some (.ok performances, r')) := by
  refine ⟨fun hr fault r' h ↦ ?_, fun hstandard hclosed hs ↦ ?_⟩
  · exact (EndsUndefined.play score r _ r' hr h).2 fault rfl
  · obtain ⟨performances, r', h, -⟩ := Completes.playSections (r.plugins.setup {}) hs r
      ⟨hstandard, hclosed, List.Subset.refl _⟩
    exact ⟨performances, r', h⟩

namespace Round

def library : Repertoire := { Repertoire.standard with themes := .ofList [("A", [.theme "A"])] }

def score (name : String) : Score where
  sections :=
    [{ settings := [⟨"Tuplet", [.number 3, .symbol (.theme "A")]⟩]
       tracks :=
         [{ name := some "B", content := [.theme "A", .phrase (-1) [.theme "B", .theme name]] }] }]

end Round

theorem play_ends_only_undefined_round :
    (∃ performances r', (play (Round.score "A")).result Round.library =
      some (.ok performances, r')) ∧
    ∃ fault r', (play (Round.score "C")).result Round.library = some (.error fault, r') ∧
      fault.Undefined r'.themes := by
  have hstandard : Round.library.OnlyStandard := Repertoire.onlyStandard_standard
  refine ⟨(play_ends_only_undefined _ _).2 hstandard ?_ ?_, ?_⟩
  · intro name content h
    obtain ⟨rfl, rfl⟩ : name = "A" ∧ content = [.theme "A"] := by
      simpa using Table.mem_of_find?_ofList h
    decide
  · exact ⟨⟨by decide, ⟨by decide, nofun⟩, trivial⟩, trivial⟩
  · have hfails : ((play (Round.score "C")).result Round.library).map (·.1.isOk) = some false := by
      decide +kernel
    obtain ⟨⟨x, r'⟩, hx, hfault⟩ := Option.map_eq_some_iff.mp hfails
    cases x with
    | ok performances => cases hfault
    | error fault =>
      exact ⟨fault, r', hx, (play_ends_only_undefined _ _).1 hstandard.relays fault r' hx⟩

end Concert

end Rendition
