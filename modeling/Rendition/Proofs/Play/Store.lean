import Rendition.Proofs.Play.Step
import Rendition.Proofs.Sound.Pairing

namespace Rendition

namespace Timing

/-- Timings one after another, each part summed up from the left. -/
def total (first : Timing) (more : List Timing) : Timing where
  beat := (more.map Timing.beat).foldl (· + ·) first.beat
  nominal := (more.map Timing.nominal).foldl (· + ·) first.nominal
  duration := (more.map Timing.duration).foldl (· + ·) first.duration

def add (a b : Timing) : Timing where
  beat := a.beat + b.beat
  nominal := a.nominal + b.nominal
  duration := a.duration + b.duration

theorem total_append (first : Timing) (more : List Timing) (last : Timing) :
    first.total (more ++ [last]) = (first.total more).add last := by
  simp [total, add]

end Timing

def Event.onset (e : Event) : Float × Float := (e.startTime, e.startBeat)

@[simp] theorem Event.onset_prolong (timing : Timing) (e : Event) :
    (e.prolong timing).onset = e.onset := rfl

/-- An onset inside a passage as the passage around has it, which stands at the clock of `scope`. -/
def Scope.shift (onset : Float × Float) (scope : Scope) : Float × Float :=
  (onset.1 + scope.progress.duration, onset.2 + scope.progress.beatCount)

theorem modify_map {α : Type} {f g : α → α} (h : ∀ a, f (g a) = g (f a)) (xs : Array α) (i : Nat) :
    (xs.map g).modify i f = (xs.modify i f).map g := by
  refine Array.ext_getElem? ?_
  intro j
  rw [Array.getElem?_modify, Array.getElem?_map, Array.getElem?_map, Array.getElem?_modify]
  split
  · simp only [Option.map_map]
    exact congrArg (xs[j]?.map ·) (funext h)
  · rfl

namespace Session

def onset? (s : Session) (id : Nat) : Option (Float × Float) := s.events[id]?.map Event.onset

@[simp] theorem size_revise (s : Session) (id : Nat) (f : Event → Event) :
    (s.revise id f).events.size = s.events.size := by simp [revise]

theorem onset?_revise (s : Session) (i id : Nat) (f : Event → Event) :
    (s.revise i f).onset? id = if i = id then s.events[id]?.map (Event.onset ∘ f)
    else s.onset? id := by
  simp only [onset?, revise, Array.getElem?_modify]
  split <;> simp

theorem later_cons (s : Session) (id : Nat) (ids : List Nat) (time beats : Float) :
    s.later (id :: ids) time beats = (s.revise id (·.later time beats)).later ids time beats := rfl

@[simp] theorem size_later (s : Session) (ids : List Nat) (time beats : Float) :
    (s.later ids time beats).events.size = s.events.size := by
  induction ids generalizing s with
  | nil => rfl
  | cons id ids ih => rw [later_cons, ih, size_revise]

theorem later_eq (s : Session) (ids : List Nat) (time beats : Float) :
    s.later ids time beats = { s with events := (s.later ids time beats).events } := by
  induction ids generalizing s with
  | nil => rfl
  | cons id ids ih => exact ih (s.revise id (·.later time beats))

@[simp] theorem later_trace (s : Session) (ids : List Nat) (time beats : Float) :
    (s.later ids time beats).trace = s.trace := by
  rw [later_eq]

@[simp] theorem later_pending (s : Session) (ids : List Nat) (time beats : Float) :
    (s.later ids time beats).pending = s.pending := by
  rw [later_eq]

@[simp] theorem later_tieLeft (s : Session) (ids : List Nat) (time beats : Float) :
    (s.later ids time beats).tieLeft = s.tieLeft := by
  rw [later_eq]

@[simp] theorem later_active (s : Session) (ids : List Nat) (time beats : Float) :
    (s.later ids time beats).active = s.active := by
  rw [later_eq]

theorem onset?_later_of_notMem (s : Session) {ids : List Nat} {id : Nat} (h : id ∉ ids)
    (time beats : Float) :
    (s.later ids time beats).onset? id = s.onset? id := by
  induction ids generalizing s with
  | nil => rfl
  | cons i ids ih =>
    obtain ⟨hi, hids⟩ := not_or.mp (mt List.mem_cons.mpr h)
    rw [later_cons, ih _ hids, onset?_revise, if_neg (Ne.symm hi)]

theorem onset?_later_of_mem (s : Session) {ids : List Nat} {id : Nat} (hn : ids.Nodup)
    (h : id ∈ ids) (time beats : Float) :
    (s.later ids time beats).onset? id = (s.onset? id).map fun o ↦ (o.1 + time, o.2 + beats) := by
  induction ids generalizing s with
  | nil => cases h
  | cons i ids ih =>
    obtain ⟨hi, hids⟩ := List.nodup_cons.mp hn
    rw [later_cons]
    by_cases hid : i = id
    · subst hid
      rw [onset?_later_of_notMem _ hi, onset?_revise, if_pos rfl, onset?, Option.map_map]
      rfl
    · rw [ih _ hids ((List.mem_cons.mp h).resolve_left (Ne.symm hid)), onset?_revise, if_neg hid]

def prolongAll (s : Session) (timing : Timing) (ties : List Pending) : Session :=
  ties.foldl (fun s tie ↦ s.revise tie.event (·.prolong timing)) s

@[simp] theorem size_prolongAll (s : Session) (timing : Timing) (ties : List Pending) :
    (s.prolongAll timing ties).events.size = s.events.size := by
  induction ties generalizing s with
  | nil => rfl
  | cons tie ties ih => exact (ih _).trans (size_revise _ _ _)

theorem prolongAll_eq (s : Session) (timing : Timing) (ties : List Pending) :
    s.prolongAll timing ties = { s with events := (s.prolongAll timing ties).events } := by
  induction ties generalizing s with
  | nil => rfl
  | cons tie ties ih => exact ih (s.revise tie.event (·.prolong timing))

@[simp] theorem onset?_prolongAll (s : Session) (timing : Timing) (ties : List Pending) (id : Nat) :
    (s.prolongAll timing ties).onset? id = s.onset? id := by
  induction ties generalizing s with
  | nil => rfl
  | cons tie ties ih =>
    refine (ih _).trans ?_
    rw [onset?_revise]
    split <;> rfl

theorem prolongAll_of_notMem (s : Session) (timing : Timing) {ties : List Pending} {id : Nat}
    (h : id ∉ ties.map Pending.event) : (s.prolongAll timing ties).events[id]? = s.events[id]? := by
  induction ties generalizing s with
  | nil => rfl
  | cons tie ties ih =>
    obtain ⟨hne, hrest⟩ := not_or.mp (mt List.mem_cons.mpr h)
    refine (ih (s.revise tie.event (·.prolong timing)) hrest).trans ?_
    rw [revise, Array.getElem?_modify, if_neg (Ne.symm hne)]

theorem prolongAll_of_mem (s : Session) (timing : Timing) {ties : List Pending} {id : Nat}
    (hn : (ties.map Pending.event).Nodup) (h : id ∈ ties.map Pending.event) :
    (s.prolongAll timing ties).events[id]? = s.events[id]?.map (·.prolong timing) := by
  induction ties generalizing s with
  | nil => cases h
  | cons tie ties ih =>
    obtain ⟨hfirst, hrest⟩ := List.nodup_cons.mp hn
    change ((s.revise tie.event (·.prolong timing)).prolongAll timing ties).events[id]? = _
    obtain rfl | hmem := List.mem_cons.mp h
    · rw [prolongAll_of_notMem _ _ hfirst, revise, Array.getElem?_modify, if_pos rfl]
    · have hne : tie.event ≠ id := fun he ↦ hfirst (he ▸ hmem)
      rw [ih _ hrest hmem, revise, Array.getElem?_modify, if_neg hne]

theorem foldl_start (s : Session) (events : List Event) :
    events.foldl start s = { s with events := s.events ++ events.toArray } := by
  induction events generalizing s with
  | nil => simp
  | cons e events ih => simp [ih, start]

/-- The store has grown: the events that were there begin where they did, and pending
ties stay inside it. -/
structure Extends (s s' : Session) : Prop where
  size_le : s.events.size ≤ s'.events.size
  onset_eq : ∀ id, id < s.events.size → s'.onset? id = s.onset? id
  pending_lt : (∀ p ∈ s.pending, p.event < s.events.size) → ∀ p ∈ s'.pending, p.event <
    s'.events.size

namespace Extends

theorem refl (s : Session) : s.Extends s := ⟨Nat.le_refl _, fun _ _ ↦ rfl, id⟩

theorem trans {s t u : Session} (h : s.Extends t) (h' : t.Extends u) : s.Extends u where
  size_le := Nat.le_trans h.size_le h'.size_le
  onset_eq id hid := (h'.onset_eq id (Nat.lt_of_lt_of_le hid h.size_le)).trans (h.onset_eq id hid)
  pending_lt hp := h'.pending_lt (h.pending_lt hp)

theorem of_eq {s t : Session} (he : t.events = s.events) (hp : t.pending = s.pending) :
    s.Extends t where
  size_le := Nat.le_of_eq (by rw [he])
  onset_eq id _ := by rw [onset?, onset?, he]
  pending_lt := by rw [he, hp]; exact id

theorem later {s t : Session} (h : s.Extends t) {ids : List Nat}
    (hids : ∀ id ∈ ids, s.events.size ≤ id) (time beats : Float) :
    s.Extends (t.later ids time beats) where
  size_le := by simpa using h.size_le
  onset_eq id hid := by
    rw [onset?_later_of_notMem _ (fun hmem ↦ Nat.not_le_of_lt hid (hids id hmem))]
    exact h.onset_eq id hid
  pending_lt hp := by simpa using h.pending_lt hp

end Extends

end Session

namespace Note

variable (note : Note) (stage : Stage) (settings : Settings) (s : Session)

def tied : List Pending × List Sound :=
  if s.tieLeft then Pending.pair s.pending (note.read stage settings s.trace).sounds
  else ([], (note.read stage settings s.trace).sounds)

theorem pairs_tied :
    Pending.Pairs (if s.tieLeft then s.pending else []) (note.read stage settings s.trace).sounds
      (note.tied stage settings s).1 (note.tied stage settings s).2 := by
  unfold tied
  split
  · exact Pending.pairs_pair _ _
  · exact .nil _

theorem tied_sublist : (note.tied stage settings s).1.Sublist s.pending := by
  refine (note.pairs_tied stage settings s).tied_sublist.trans ?_
  split
  · exact .refl _
  · exact List.nil_sublist _

def fresh (progress : Progress) : List Event :=
  stage.repertoire.plugins.revise settings
    ((note.tied stage settings s).2.map (.ofSound (note.timing settings) progress.duration
      progress.beatCount))

theorem length_fresh (progress : Progress) :
    (note.fresh stage settings s progress).length = (note.tied stage settings s).2.length := by
  rw [fresh, Plugins.revise_length, List.length_map]

end Note

theorem Session.record_events (s : Session) (tones : List Tone) :
    (s.record tones).events = s.events := by
  unfold record
  split <;> rfl

theorem Session.record_pending (s : Session) (tones : List Tone) :
    (s.record tones).pending = s.pending := by
  unfold record
  split <;> rfl

theorem Session.record_tieLeft (s : Session) (tones : List Tone) :
    (s.record tones).tieLeft = s.tieLeft := by
  unfold record
  split <;> rfl

theorem Session.record_active (s : Session) (tones : List Tone) :
    (s.record tones).active = s.active := by
  unfold record
  split <;> rfl

namespace Scope

variable (scope : Scope) (stage : Stage) (s : Session) (note : Note)

/-- The session in which a note starts its events: its tones are recorded, and ties have
taken sounds of it. -/
def noteBase : Session :=
  { (s.record (note.read stage scope.settings s.trace).tones).prolongAll
      (note.timing scope.settings) (note.tied stage scope.settings s).1 with tieLeft := false }

theorem tieOver_eq : (s.record (note.read stage scope.settings s.trace).tones).tieOver
    (note.timing scope.settings) (note.read stage scope.settings s.trace).sounds =
      (scope.noteBase stage s note, note.tied stage scope.settings s) := by
  unfold noteBase Session.tieOver Note.tied
  rw [Session.record_tieLeft, Session.record_pending]
  have ht := Session.record_tieLeft s (note.read stage scope.settings s.trace).tones
  generalize s.record (note.read stage scope.settings s.trace).tones = t at ht
  cases h : s.tieLeft
  · obtain ⟨trace, pending, tieLeft, active, events⟩ := t
    obtain rfl : tieLeft = false := ht.trans h
    rfl
  · rfl

@[simp] theorem noteBase_size : (scope.noteBase stage s note).events.size = s.events.size := by
  change ((s.record _).prolongAll _ _).events.size = _
  rw [Session.size_prolongAll, Session.record_events]

theorem noteBase_onset? (id : Nat) : (scope.noteBase stage s note).onset? id = s.onset? id := by
  change ((s.record _).prolongAll _ _).onset? id = _
  rw [Session.onset?_prolongAll, Session.onset?, Session.onset?, Session.record_events]

def started : List Nat :=
  List.range' s.events.size (note.fresh stage scope.settings s scope.progress).length

theorem noted_events : (scope.noted stage s note).1.events = scope.events ++
    scope.started stage s note := by
  unfold noted Note.play
  simp only [tieOver_eq]
  rw [started, ← noteBase_size scope stage s note]
  rfl

theorem noted_snd : (scope.noted stage s note).2 =
    { scope.noteBase stage s note with
      events := (scope.noteBase stage s note).events ++
        (note.fresh stage scope.settings s scope.progress).toArray
      pending := (note.tied stage scope.settings s).1 ++
        List.zipWith .ofSound (scope.started stage s note)
        (note.tied stage scope.settings s).2 } := by
  unfold noted Note.play
  simp only [tieOver_eq, Session.startAll, Session.foldl_start]
  rw [started, ← noteBase_size scope stage s note]
  rfl

theorem noted_active : (scope.noted stage s note).2.active = s.active := by
  rw [noted_snd, noteBase, Session.prolongAll_eq]
  exact Session.record_active s _

theorem noted_trace : (scope.noted stage s note).2.trace =
    (s.record (note.read stage scope.settings s.trace).tones).trace := by
  rw [noted_snd, noteBase, Session.prolongAll_eq]

theorem noted_size : (scope.noted stage s note).2.events.size =
    s.events.size + (note.fresh stage scope.settings s scope.progress).length := by
  simp [noted_snd]

theorem noted_onset? {id : Nat} (h : id < s.events.size) :
    (scope.noted stage s note).2.onset? id = s.onset? id := by
  rw [noted_snd, ← noteBase_onset? scope stage s note]
  have hid : id < (scope.noteBase stage s note).events.size := by rwa [noteBase_size]
  exact congrArg (Option.map Event.onset) (Array.getElem?_append_left hid)

theorem noted_onset?_add (k : Nat) : (scope.noted stage s note).2.onset? (s.events.size + k) =
    (note.fresh stage scope.settings s scope.progress)[k]?.map Event.onset := by
  rw [noted_snd]
  simp [Session.onset?, Array.getElem?_append_right]

end Scope

theorem Scope.noted_extends (scope : Scope) (stage : Stage) (s : Session) (note : Note) :
    s.Extends (scope.noted stage s note).2 where
  size_le := by rw [noted_size]; exact Nat.le_add_right _ _
  onset_eq _ h := noted_onset? scope stage s note h
  pending_lt hp p hmem := by
    rw [noted_size]
    rw [noted_snd] at hmem
    obtain htied | hfresh := List.mem_append.mp hmem
    · have := hp p ((note.tied_sublist stage scope.settings s).subset htied)
      omega
    · obtain ⟨i, hi, rfl⟩ := List.getElem_of_mem hfresh
      simp only [List.length_zipWith, started, List.length_range'] at hi
      simp only [List.getElem_zipWith, Pending.ofSound, started, List.getElem_range']
      omega

end Rendition
