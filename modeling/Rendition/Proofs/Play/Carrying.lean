import Rendition.Proofs.Number.Order
import Rendition.Proofs.Play.Placement
import Rendition.Proofs.Play.Prolonging
import Rendition.Proofs.Play.Succession

namespace Rendition

namespace Event

def timing (e : Event) : Timing := ⟨e.beat, e.nominal, e.duration⟩

/-- The event keeps its pitch and its volume, and its lengths only gain those of notes tied to
it. -/
structure LastsAs (e e' : Event) : Prop where
  pitch : e'.pitch = e.pitch
  volume : e'.volume = e.volume
  timing : ∃ more, e'.timing = e.timing.total more

theorem LastsAs.refl (e : Event) : e.LastsAs e := ⟨rfl, rfl, [], rfl⟩

theorem LastsAs.trans {e e' e'' : Event} (h : e.LastsAs e') (h' : e'.LastsAs e'') :
    e.LastsAs e'' where
  pitch := h'.pitch.trans h.pitch
  volume := h'.volume.trans h.volume
  timing := by
    obtain ⟨more, hmore⟩ := h.timing
    obtain ⟨more', hmore'⟩ := h'.timing
    refine ⟨more ++ more', ?_⟩
    rw [hmore', hmore]
    simp [Timing.total]

theorem lastsAs_prolong (timing : Timing) (e : Event) : e.LastsAs (e.prolong timing) :=
  ⟨rfl, rfl, [timing], rfl⟩

theorem LastsAs.of_unplaced {e e' : Event} (h : e'.unplaced = e.unplaced) : e.LastsAs e' where
  pitch := (congrArg Event.pitch h :)
  volume := (congrArg Event.volume h :)
  timing := ⟨[], (congrArg Event.timing h :)⟩

/-- The event has the pitch and the volume, clipped, as far as the plugins leave these. -/
structure Sounds (plugins : Plugins) (pitch : Option Int32) (volume : Float)
    (e : Event) : Prop where
  pitch : plugins.Keep Event.pitch → e.pitch = pitch
  volume : plugins.Keep Event.volume → e.volume == Number.smaller volume 1

theorem LastsAs.sounds {plugins : Plugins} {pitch : Option Int32} {volume : Float} {e e' : Event}
    (h : e.LastsAs e') (hs : e.Sounds plugins pitch volume) : e'.Sounds plugins pitch volume where
  pitch hp := h.pitch.trans (hs.pitch hp)
  volume hp := h.volume ▸ hs.volume hp

theorem isNaN_one : (1 : Float).isNaN = false := by decide +kernel

theorem Sounds.continues {plugins : Plugins} {tie : Pending} {sound : Sound} {e : Event}
    (h : e.Sounds plugins tie.pitch tie.volume) (hc : tie.continues sound) :
    e.Sounds plugins sound.pitch sound.volume := by
  obtain ⟨hpitch, hvolume⟩ := Pending.continues_iff.mp hc
  refine ⟨fun hp ↦ (h.pitch hp).trans hpitch.symm, fun hp ↦ ?_⟩
  exact PartialEquivBEq.trans (h.volume hp)
    (Number.smaller_beq isNaN_one (PartialEquivBEq.symm hvolume))

end Event

namespace Session

def Lasts (s t : Session) : Prop :=
  ∀ (id : Nat) (e : Event), s.events[id]? = some e → ∃ e', t.events[id]? = some e' ∧ e.LastsAs e'

theorem Lasts.refl (s : Session) : s.Lasts s := fun _ e he ↦ ⟨e, he, .refl e⟩

theorem Lasts.trans {s t u : Session} (h : s.Lasts t) (h' : t.Lasts u) : s.Lasts u := by
  intro id e he
  obtain ⟨e', he', hlasts⟩ := h id e he
  obtain ⟨e'', he'', hlasts'⟩ := h' id e' he'
  exact ⟨e'', he'', hlasts.trans hlasts'⟩

theorem Waits.lasts {s t : Session} (h : s.Waits t) : s.Lasts t := by
  intro id e he
  have hsound := h.sounds id
  rw [sound?, sound?, he] at hsound
  obtain ⟨e', he', hunplaced⟩ := Option.map_eq_some_iff.mp hsound
  exact ⟨e', he', .of_unplaced hunplaced⟩

theorem lasts_prolongAll (s : Session) (timing : Timing) (ties : List Pending) :
    s.Lasts (s.prolongAll timing ties) := by
  induction ties generalizing s with
  | nil => exact .refl s
  | cons tie ties ih =>
    have hfirst : s.Lasts (s.revise tie.event (·.prolong timing)) := by
      intro id e he
      rw [revise, Array.getElem?_modify, he]
      split
      · exact ⟨_, rfl, e.lastsAs_prolong timing⟩
      · exact ⟨e, rfl, .refl e⟩
    exact hfirst.trans (ih _)

/-- The events that a tie may prolong are kept in different places, and sound as the session knows
of them. -/
structure Faithful (plugins : Plugins) (s : Session) : Prop where
  distinct : (s.pending.map Pending.event).Nodup
  sounds : ∀ p ∈ s.pending, ∃ e, s.events[p.event]? = some e ∧ e.Sounds plugins p.pitch p.volume

theorem Faithful.pending_lt {plugins : Plugins} {s : Session} (h : s.Faithful plugins) :
    ∀ p ∈ s.pending, p.event < s.events.size := by
  intro p hp
  obtain ⟨e, he, -⟩ := h.sounds p hp
  exact (Array.getElem?_eq_some_iff.mp he).1

theorem Faithful.waits {plugins : Plugins} {s t : Session} (h : s.Faithful plugins)
    (hw : s.Waits t) : t.Faithful plugins where
  distinct := hw.pending ▸ h.distinct
  sounds p hp := by
    obtain ⟨e, he, hsounds⟩ := h.sounds p (hw.pending ▸ hp)
    obtain ⟨e', he', hlasts⟩ := hw.lasts p.event e he
    exact ⟨e', he', hlasts.sounds hsounds⟩

end Session

namespace Entrance

variable (stage : Stage) (e : Entrance)

def ties : List Pending := (e.note.tied stage e.scope.settings e.session).1

def sounds : List Sound := (e.note.read stage e.scope.settings e.session.trace).sounds

def untied : List Sound := (e.note.tied stage e.scope.settings e.session).2

def fresh : List Event := e.note.fresh stage e.scope.settings e.session e.scope.progress

def after : Session := (e.scope.noted stage e.session e.note).2

/-- A tie lets the note prolong an event that has been there: by its beats, and by its seconds as
they are written and as they sound. -/
def Prolongs (id : Nat) : Prop :=
  e.session.tieLeft = true ∧ ∃ event, e.session.events[id]? = some event ∧
    (e.after stage).events[id]? = some { event with
      beat := event.beat + (e.note.timing e.scope.settings).beat
      nominal := event.nominal + (e.note.timing e.scope.settings).nominal
      duration := event.duration + (e.note.timing e.scope.settings).duration }

/-- The note starts an event for a sound at the clock, which the plugins may have changed. -/
def Starts (sound : Sound) (id : Nat) : Prop :=
  e.session.events.size ≤ id ∧ ∃ event, (e.after stage).events[id]? = some event ∧
    ∀ {α : Type} (part : Event → α), stage.repertoire.plugins.Keep part → part event = part {
      pitch := sound.pitch
      volume := Number.smaller sound.volume 1
      beat := (e.note.timing e.scope.settings).beat
      nominal := (e.note.timing e.scope.settings).nominal
      duration := (e.note.timing e.scope.settings).duration
      startTime := e.scope.progress.duration
      startBeat := e.scope.progress.beatCount }

/-- An event carries a sound of the note: it is prolonged or started for it, has its pitch and its
volume, and lasts up to a later session. -/
structure Carries (later : Session) (sound : Sound) (id : Nat) : Prop where
  origin : e.Prolongs stage id ∨ e.Starts stage sound id
  lasts : ∃ event last, (e.after stage).events[id]? = some event ∧
    later.events[id]? = some last ∧
    event.Sounds stage.repertoire.plugins sound.pitch sound.volume ∧ event.LastsAs last

variable {stage} {e}

theorem ties_subset : e.ties stage ⊆ e.session.pending :=
  (e.note.tied_sublist stage e.scope.settings e.session).subset

theorem length_fresh : (e.fresh stage).length = (e.untied stage).length :=
  e.note.length_fresh stage e.scope.settings e.session e.scope.progress

theorem pending_after : (e.after stage).pending = e.ties stage ++
    List.zipWith .ofSound (List.range' e.session.events.size (e.fresh stage).length)
      (e.untied stage) := by
  rw [after, Scope.noted_snd]
  rfl

theorem events_after_of_lt {id : Nat} (hid : id < e.session.events.size) :
    (e.after stage).events[id]? = ((e.session.record
      (e.note.read stage e.scope.settings e.session.trace).tones).prolongAll
        (e.note.timing e.scope.settings) (e.ties stage)).events[id]? := by
  rw [after, Scope.noted_snd]
  exact Array.getElem?_append_left (by rwa [Scope.noteBase_size])

theorem events_after {id : Nat} (hid : id < e.session.events.size)
    (h : id ∉ (e.ties stage).map Pending.event) :
    (e.after stage).events[id]? = e.session.events[id]? := by
  rw [events_after_of_lt hid, Session.prolongAll_of_notMem _ _ h, Session.record_events]

theorem events_after_add (k : Nat) :
    (e.after stage).events[e.session.events.size + k]? = (e.fresh stage)[k]? := by
  rw [after, Scope.noted_snd]
  simp [Array.getElem?_append_right, fresh]

theorem lasts_after : e.session.Lasts (e.after stage) := by
  intro id event hid
  rw [events_after_of_lt (Array.getElem?_eq_some_iff.mp hid).1]
  refine Session.lasts_prolongAll _ _ _ id event ?_
  rwa [Session.record_events]

theorem starts {k : Nat} {sound : Sound} (h : (e.untied stage)[k]? = some sound) :
    e.Starts stage sound (e.session.events.size + k) := by
  obtain ⟨hk, -⟩ := List.getElem?_eq_some_iff.mp h
  obtain ⟨event, hfresh⟩ : ∃ event, (e.fresh stage)[k]? = some event :=
    ⟨_, List.getElem?_eq_getElem (length_fresh ▸ hk)⟩
  refine ⟨Nat.le_add_right _ k, event, events_after_add k ▸ hfresh, fun part hp ↦ ?_⟩
  have hmap : (e.fresh stage).map part = (e.untied stage).map _ := e.note.map_fresh hp
  have hpart := congrArg (·[k]?) hmap
  simp only [List.getElem?_map, h, hfresh, Option.map_some, Option.some.injEq] at hpart
  exact hpart

theorem Starts.sounds {id : Nat} {sound : Sound} (h : e.Starts stage sound id) :
    ∃ event, (e.after stage).events[id]? = some event ∧
      event.Sounds stage.repertoire.plugins sound.pitch sound.volume := by
  obtain ⟨-, event, hevent, hparts⟩ := h
  refine ⟨event, hevent, fun hp ↦ hparts Event.pitch hp, fun hp ↦ ?_⟩
  rw [hparts Event.volume hp]
  exact Number.beq_self (Number.isNaN_smaller Event.isNaN_one)

theorem faithful_after (h : e.session.Faithful stage.repertoire.plugins) :
    (e.after stage).Faithful stage.repertoire.plugins where
  distinct := Scope.noted_pending_nodup h.distinct h.pending_lt
  sounds p hp := by
    rw [pending_after] at hp
    obtain hp | hp := List.mem_append.mp hp
    · obtain ⟨event, hevent, hsounds⟩ := h.sounds p (ties_subset hp)
      obtain ⟨event', hevent', hlasts⟩ := lasts_after p.event event hevent
      exact ⟨event', hevent', hlasts.sounds hsounds⟩
    · obtain ⟨k, hk, rfl⟩ := List.getElem_of_mem hp
      rw [List.length_zipWith] at hk
      have huntied : (e.untied stage)[k]? = some (e.untied stage)[k] :=
        List.getElem?_eq_getElem (Nat.lt_of_lt_of_le hk (Nat.min_le_right _ _))
      rw [List.getElem_zipWith, List.getElem_range', Nat.one_mul]
      exact (starts huntied).sounds

end Entrance

/-- What waiting and playing a note each keep holds from a session up to each note that follows, and
from there to the end. -/
theorem Follow.keeps {stage : Stage} {R : Session → Session → Prop}
    (htrans : ∀ {s t u}, R s t → R t u → R s u) (hwaits : ∀ {s t : Session}, s.Waits t → R s t)
    (hnote : ∀ e : Entrance, R e.session (e.after stage)) {s t : Session} {es : List Entrance}
    (h : Follow stage s es (some t)) :
    R s t ∧ ∀ e ∈ es, R s e.session ∧ R (e.after stage) t := by
  induction es generalizing s with
  | nil => exact ⟨hwaits (h t rfl), nofun⟩
  | cons e rest ih =>
    obtain ⟨hafter, hrest⟩ := ih h.2
    have hhere := htrans (hwaits h.1) (hnote e)
    refine ⟨htrans hhere hafter, List.forall_mem_cons.mpr ⟨⟨hwaits h.1, hafter⟩, ?_⟩⟩
    exact fun e' he' ↦ ⟨htrans hhere (hrest e' he').1, (hrest e' he').2⟩

end Rendition
