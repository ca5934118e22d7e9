import Rendition.Proofs.Concert.Validity

namespace Rendition

def Track.definition? (track : Track) : Option (String × List Symbol) :=
  track.name.map (·, track.content)

def Section.definitions (s : Section) : List (String × List Symbol) :=
  s.tracks.filterMap Track.definition?

namespace Score

def definitions (score : Score) : List (String × List Symbol) :=
  score.sections.flatMap Section.definitions

end Score

namespace Repertoire

/-- The repertoire with themes laid over its own, one after another. -/
def defineAll (r : Repertoire) (definitions : List (String × List Symbol)) : Repertoire :=
  { r with themes := definitions.foldl (fun themes d ↦ themes.insert d.1 d.2) r.themes }

variable (r : Repertoire) (definitions more : List (String × List Symbol))

theorem defineAll_append : r.defineAll (definitions ++ more) =
    (r.defineAll definitions).defineAll more := by
  simp only [defineAll, List.foldl_append]

theorem introduce_eq (track : Track) :
    r.introduce track = r.defineAll track.definition?.toList := by
  unfold introduce Track.definition?
  cases track.name <;> rfl

end Repertoire

namespace Concert

variable {α β : Type} {r r' r₁ r₂ : Repertoire} {global global' settings : Settings}

section Reached

/-- The definitions that tracks come to before a fault ends them, if one does. -/
def reachedInTracks (settings : Settings) : List Track → Counts → Repertoire →
    List (String × List Symbol)
  | [], _, _ => []
  | track :: rest, counts, r =>
    track.definition?.toList ++
      match (playInstruments settings track track.players counts).result (r.introduce track) with
      | some (.ok (_, counts), r') => reachedInTracks settings rest counts r'
      | _ => []

/-- The settings that a section hands on, and those of its tracks. -/
def setUp (global : Settings) (s : Section) : Concert (Settings × Settings) := do
  let (global, _) ← applyCalls global s.prolog
  let (settings, _) ← applyCalls global s.settings
  return (global, settings)

def reachedInSections (global : Settings) : List Section → Repertoire → List (String × List Symbol)
  | [], _ => []
  | s :: rest, r =>
    match (setUp global s).result r with
    | some (.ok (global, settings), r) =>
      reachedInTracks settings s.tracks ∅ r ++
        match (playTracks settings s.tracks ∅).result r with
        | some (.ok _, r) => reachedInSections global rest r
        | _ => []
    | _ => []

def reached (score : Score) (r : Repertoire) : List (String × List Symbol) :=
  reachedInSections (r.plugins.setup {}) score.sections r

/-- A concert has laid the definitions reached over the themes: a part of all from the beginning,
and all of them if no fault has ended it. -/
structure Reaches (r : Repertoire) (ended : Bool) (r' : Repertoire)
    (reached all : List (String × List Symbol)) : Prop where
  left : r' = r.defineAll reached
  initial : reached <+: all
  complete : ended → reached = all

namespace Reaches

variable {ended : Bool} {reached reached' all all' : List (String × List Symbol)}

theorem nil : Reaches r ended r [] [] := ⟨rfl, List.prefix_refl _, fun _ ↦ rfl⟩

theorem append (h : Reaches r true r₁ reached all) (h' : Reaches r₁ ended r' reached' all') :
    Reaches r ended r' (reached ++ reached') (all ++ all') := by
  obtain rfl := h.complete rfl
  refine ⟨?_, (List.prefix_append_right_inj _).mpr h'.initial,
    fun hended ↦ by rw [h'.complete hended]⟩
  rw [h'.left, h.left, Repertoire.defineAll_append]

theorem stop (h : Reaches r ended r' reached all) (all' : List (String × List Symbol)) :
    Reaches r false r' (reached ++ []) (all ++ all') := by
  rw [List.append_nil]
  exact ⟨h.left, h.initial.trans (List.prefix_append _ _), fun he ↦ absurd he Bool.false_ne_true⟩

theorem introduce (r : Repertoire) (track : Track) :
    Reaches r ended (r.introduce track) track.definition?.toList track.definition?.toList :=
  ⟨r.introduce_eq track, List.prefix_refl _, fun _ ↦ rfl⟩

end Reaches

theorem eq_of_applyCalls {calls : List Call} {x : Except Fault (Settings × List Remark)}
    (h : (applyCalls settings calls).result r = some (x, r')) : r' = r := by
  rw [result_applyCalls] at h
  obtain ⟨y, -, he⟩ := Option.map_eq_some_iff.mp h
  cases he
  rfl

theorem eq_of_playInstruments {track : Track} {instruments : List Instrument} {counts : Counts}
    {x : Except Fault (List Performance × Counts)}
    (h : (playInstruments settings track instruments counts).result r = some (x, r')) : r' = r := by
  induction instruments generalizing counts x r r' with
  | nil =>
    cases h
    rfl
  | cons instrument rest ih =>
    rw [result_playInstruments_cons, result_bind, Option.bind_eq_some_iff] at h
    obtain ⟨⟨y, r₁⟩, hfirst, hrest⟩ := h
    obtain ⟨z, -, hz⟩ := Option.map_eq_some_iff.mp hfirst
    cases hz
    cases y with
    | error fault =>
      cases hrest
      rfl
    | ok performance =>
      dsimp only at hrest
      rw [result_bind, Option.bind_eq_some_iff] at hrest
      obtain ⟨⟨z, r₂⟩, hlater, hrest⟩ := hrest
      have hr₂ := ih hlater
      cases z <;> cases hrest <;> exact hr₂

theorem reaches_playTracks {tracks : List Track} {counts : Counts}
    {x : Except Fault (List Performance)}
    (h : (playTracks settings tracks counts).result r = some (x, r')) :
    Reaches r x.isOk r' (reachedInTracks settings tracks counts r)
      (tracks.filterMap Track.definition?) := by
  induction tracks generalizing counts x r r' with
  | nil =>
    cases h
    exact .nil
  | cons track rest ih =>
    have hall : (track :: rest).filterMap Track.definition? =
        track.definition?.toList ++ rest.filterMap Track.definition? := by
      cases hd : track.definition? <;> simp [hd]
    rw [result_playTracks_cons, result_bind] at h
    change (_ : Concert (List Performance)).result (r.introduce track) = _ at h
    rw [result_bind, Option.bind_eq_some_iff] at h
    obtain ⟨⟨y, r₁⟩, hplayed, hrest⟩ := h
    obtain rfl := eq_of_playInstruments hplayed
    rw [reachedInTracks, hplayed, hall]
    cases y with
    | error fault =>
      cases hrest
      have hintroduced : Reaches r true (r.introduce track) _ _ := .introduce r track
      exact hintroduced.stop _
    | ok played =>
      dsimp only at hrest ⊢
      rw [result_bind, Option.bind_eq_some_iff] at hrest
      obtain ⟨⟨z, r₂⟩, hlater, hrest⟩ := hrest
      have hreaches := (Reaches.introduce r track).append (ih hlater)
      cases z <;> cases hrest <;> exact hreaches

theorem setUp_of_error {s : Section} {fault : Fault}
    (h : (applyCalls global s.prolog).result r = some (.error fault, r')) :
    (setUp global s).result r = some (.error fault, r') := by
  rw [setUp, result_bind, h]
  rfl

theorem setUp_of_ok {s : Section} {handed : Settings × List Remark}
    (h : (applyCalls global s.prolog).result r = some (.ok handed, r₁)) :
    (setUp global s).result r = ((applyCalls handed.1 s.settings).result r₁).map fun x ↦
      (x.1.map fun made ↦ (handed.1, made.1), x.2) := by
  rw [setUp, result_bind, h, Option.bind_some]
  dsimp only
  rw [result_bind]
  rcases (applyCalls handed.1 s.settings).result r₁ with - | ⟨fault | made, r₂⟩ <;> rfl

theorem playSection_cases {s : Section} {x : Except Fault (Settings × Option SectionPerformance)}
    (h : (playSection global s).result r = some (x, r')) :
    (∃ fault, x = .error fault ∧ r' = r ∧ (setUp global s).result r = some (.error fault, r)) ∨
      ∃ handed settings y, (setUp global s).result r = some (.ok (handed, settings), r) ∧
        (playTracks settings s.tracks ∅).result r = some (y, r') ∧
        y.map (fun _ ↦ handed) = x.map Prod.fst := by
  rw [playSection, result_bind, Option.bind_eq_some_iff] at h
  obtain ⟨⟨y, r₁⟩, hprolog, h⟩ := h
  obtain rfl := eq_of_applyCalls hprolog
  cases y with
  | error fault =>
    cases h
    exact .inl ⟨fault, rfl, rfl, setUp_of_error hprolog⟩
  | ok handed =>
    have hsetUp := setUp_of_ok hprolog
    dsimp only at h
    rw [result_bind, Option.bind_eq_some_iff] at h
    obtain ⟨⟨y, r₂⟩, hsettings, h⟩ := h
    obtain rfl := eq_of_applyCalls hsettings
    rw [hsettings] at hsetUp
    cases y with
    | error fault =>
      cases h
      exact .inl ⟨fault, rfl, rfl, hsetUp⟩
    | ok made =>
      dsimp only at h
      rw [result_bind, Option.bind_eq_some_iff] at h
      obtain ⟨⟨y, r₃⟩, htracks, h⟩ := h
      refine .inr ⟨handed.1, made.1, y, hsetUp, ?_⟩
      cases y with
      | error fault =>
        cases h
        exact ⟨htracks, rfl⟩
      | ok tracks =>
        dsimp only at h
        split at h <;> cases h <;> exact ⟨htracks, rfl⟩

end Reached

section Alike

def SetsAlike (r r' : Repertoire) : Prop :=
  ∀ global calls handed handed' r₁ r₁', (applyCalls global calls).result r = some (.ok handed, r₁) →
    (applyCalls global calls).result r' = some (.ok handed', r₁') → handed'.1 = handed.1

theorem SetsAlike.refl (r : Repertoire) : SetsAlike r r := by
  intro global calls handed handed' r₁ r₁' h h'
  rw [h] at h'
  cases h'
  rfl

end Alike

section Each

theorem playSection_ok {s : Section} {performance : Option SectionPerformance}
    (h : (playSection global s).result r = some (.ok (global', performance), r')) :
    (∃ remarks, (applyCalls global s.prolog).result r = some (.ok (global', remarks), r)) ∧
      r' = r.defineAll s.definitions := by
  obtain ⟨fault, hx, -⟩ | ⟨handed, settings, y, hsetUp, htracks, hhanded⟩ := playSection_cases h
  · cases hx
  · cases y with
    | error fault => cases hhanded
    | ok tracks =>
      obtain rfl := Except.ok.inj hhanded
      obtain ⟨⟨first, remarks⟩, r₁, hprolog, hrest⟩ := result_bind_eq_ok.mp hsetUp
      obtain ⟨second, r₂, -, he⟩ := result_bind_eq_ok.mp hrest
      obtain rfl := eq_of_applyCalls hprolog
      cases he
      have hreaches := reaches_playTracks htracks
      refine ⟨⟨remarks, hprolog⟩, ?_⟩
      rw [hreaches.left, hreaches.complete rfl]
      rfl

end Each

namespace Refrain

def note (degree : UInt8) : Symbol := .note { pitches := [{ degree := .scale degree }] }

def faster : List Call := [⟨"Speed", [.number 120]⟩]

def refrain : Section := { tracks := [{ content := [.theme "A"] }] }

def score : Score where
  sections := [{ prolog := faster, tracks := [{ name := some "A", content := [note 1] }] }, refrain]

end Refrain

namespace Hearing

/-- The body of a function that goes faster if there is something to be heard in a theme. -/
def body : Script (Option Passage) := .play { content := [.theme "A"] } {} .full fun
  | .error fault => .fail fault
  | .ok passage => if passage.events.isEmpty then .done none else
    (Script.adjust (·.withScalar "speed" 120)).bind fun _ ↦ .done none

def library : Repertoire where
  functions := .ofList [("Hear", { body := fun _ _ ↦ body })]
  themes := .ofList [("A", [])]

def define : List Track := [{ name := some "A", content := [Refrain.note 1] }]

/-- The theme is defined before the section whose prolog hears it. -/
def early : Score where
  sections := [{ tracks := define }, { prolog := [⟨"Hear", []⟩] }, Refrain.refrain]

/-- The theme is defined by the section whose prolog hears it, which still finds the old one. -/
def late : Score where
  sections := [{}, { prolog := [⟨"Hear", []⟩], tracks := define }, Refrain.refrain]

end Hearing

end Concert

end Rendition
