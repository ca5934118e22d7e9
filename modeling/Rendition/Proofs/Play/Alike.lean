import Rendition.Proofs.Play.Frame
import Rendition.Proofs.Play.Modest
import Rendition.Proofs.Play.Store

namespace Rendition

def Event.unplaced (e : Event) : Event := { e with startTime := 0, startBeat := 0 }

def sounding (remarks : List Remark) : List Finding :=
  (remarks.map Remark.finding).filter (!·.isMetric)

@[simp] theorem sounding_append (remarks remarks' : List Remark) :
    sounding (remarks ++ remarks') = sounding remarks ++ sounding remarks' := by
  simp [sounding]

theorem sounding_metric {remarks : List Remark} (h : ∀ r ∈ remarks, r.finding.isMetric) :
    sounding remarks = [] := by
  simpa [sounding, List.filter_eq_nil_iff] using h

@[simp] theorem isMetric_within (r : Remark) (place : Place) (time : Float) :
    (r.within place time).finding.isMetric = r.finding.isMetric := by
  obtain ⟨finding, path⟩ := r
  cases finding <;> rfl

theorem finding_within {r : Remark} (h : r.finding.isMetric = false) (place : Place)
    (time : Float) :
    (r.within place time).finding = r.finding := by
  obtain ⟨finding, path⟩ := r
  cases finding <;> first | rfl | cases h

theorem sounding_within (remarks : List Remark) (place : Place) (time : Float) :
    sounding (remarks.map (·.within place time)) = sounding remarks := by
  induction remarks with
  | nil => rfl
  | cons r rest ih =>
    simp only [sounding, List.map_cons, List.filter_cons, isMetric_within] at ih ⊢
    rw [ih]
    cases h : r.finding.isMetric
    · rw [finding_within h]
    · rfl

theorem sounding_located (findings : List Finding) (place : Place) :
    sounding (findings.map (.located · place)) = findings.filter (!·.isMetric) := by
  have h : (Remark.finding ∘ fun f ↦ Remark.located f place) = id := rfl
  simp [sounding, h]

namespace Session

def sound? (s : Session) (id : Nat) : Option Event := s.events[id]?.map Event.unplaced

/-- Sessions that differ at most in where their events begin. -/
structure Alike (s t : Session) : Prop where
  trace : s.trace = t.trace
  pending : s.pending = t.pending
  tieLeft : s.tieLeft = t.tieLeft
  active : s.active = t.active
  sounds : ∀ id, s.sound? id = t.sound? id

theorem sound?_revise {f : Event → Event} {g : Event → Event}
    (h : ∀ e, (f e).unplaced = g e.unplaced) (s : Session) (i id : Nat) :
    (s.revise i f).sound? id = if i = id then (s.sound? id).map g else s.sound? id := by
  simp only [sound?, revise, Array.getElem?_modify]
  split
  · rw [Option.map_map, Option.map_map]
    exact congrArg (Option.map · _) (funext h)
  · rfl

@[simp] theorem sound?_later (s : Session) (ids : List Nat) (time beats : Float) (i : Nat) :
    (s.later ids time beats).sound? i = s.sound? i := by
  induction ids generalizing s with
  | nil => rfl
  | cons id ids ih =>
    rw [later_cons, ih, sound?_revise (f := (·.later time beats)) (g := fun e ↦ e) (fun _ ↦ rfl)]
    split
    · exact congrFun Option.map_id _
    · rfl

theorem size_eq_of_sound? {s t : Session} (h : ∀ id, s.sound? id = t.sound? id) :
    s.events.size = t.events.size := by
  have hle : ∀ id, s.events.size ≤ id ↔ t.events.size ≤ id := by
    intro id
    have := congrArg (· = none) (h id)
    simpa only [sound?, Option.map_eq_none_iff, Array.getElem?_eq_none_iff, eq_iff_iff] using this
  have := hle s.events.size
  have := hle t.events.size
  omega

namespace Alike

variable {s t : Session}

theorem refl (s : Session) : s.Alike s := ⟨rfl, rfl, rfl, rfl, fun _ ↦ rfl⟩

theorem size (h : s.Alike t) : s.events.size = t.events.size := size_eq_of_sound? h.sounds

theorem revise (h : s.Alike t) {f : Event → Event} {g : Event → Event}
    (hf : ∀ e, (f e).unplaced = g e.unplaced) (id : Nat) :
    (s.revise id f).Alike (t.revise id f) where
  trace := h.trace
  pending := h.pending
  tieLeft := h.tieLeft
  active := h.active
  sounds i := by rw [sound?_revise hf, sound?_revise hf, h.sounds]

theorem prolongAll (h : s.Alike t) (timing : Timing) (ties : List Pending) :
    (s.prolongAll timing ties).Alike (t.prolongAll timing ties) := by
  induction ties generalizing s t with
  | nil => exact h
  | cons tie ties ih => exact ih (h.revise (g := (·.prolong timing)) (fun _ ↦ rfl) tie.event)

theorem record (h : s.Alike t) (tones : List Tone) : (s.record tones).Alike (t.record tones) := by
  unfold Session.record
  split
  · exact h
  · exact ⟨by rw [h.trace], h.pending, h.tieLeft, h.active, h.sounds⟩

theorem later (h : s.Alike t) (ids : List Nat) (time beats : Float) :
    (s.later ids time beats).Alike t where
  trace := (s.later_trace ids time beats).trans h.trace
  pending := (s.later_pending ids time beats).trans h.pending
  tieLeft := (s.later_tieLeft ids time beats).trans h.tieLeft
  active := (s.later_active ids time beats).trans h.active
  sounds id := by rw [sound?_later, h.sounds]

theorem symm (h : s.Alike t) : t.Alike s :=
  ⟨h.trace.symm, h.pending.symm, h.tieLeft.symm, h.active.symm, fun id ↦ (h.sounds id).symm⟩

theorem entering (h : s.Alike t) (name : String) : (s.entering name).Alike (t.entering name) :=
  ⟨h.trace, h.pending, h.tieLeft, by rw [Session.entering, Session.entering, h.active], h.sounds⟩

theorem leaving (h : s.Alike t) : s.leaving.Alike t.leaving :=
  ⟨h.trace, h.pending, h.tieLeft, by rw [Session.leaving, Session.leaving, h.active], h.sounds⟩

theorem eventsAt (h : s.Alike t) (ids : List Nat) :
    (s.eventsAt ids).map Event.unplaced = (t.eventsAt ids).map Event.unplaced := by
  have hmap : ∀ u : Session, (u.eventsAt ids).map Event.unplaced = ids.filterMap u.sound? := by
    intro u
    rw [Session.eventsAt, List.map_filterMap]
    rfl
  rw [hmap, hmap, funext h.sounds]

theorem noted {stage : Stage} (hp : stage.repertoire.plugins = ∅) (h : s.Alike t) {a b : Scope}
    (hab : b.settings = a.settings) (note : Note) :
    a.started stage s note = b.started stage t note ∧
      (a.noted stage s note).2.Alike (b.noted stage t note).2 := by
  have htied : note.tied stage a.settings s = note.tied stage b.settings t := by
    rw [hab, Note.tied, Note.tied, h.trace, h.pending, h.tieLeft]
  have hread : note.read stage a.settings s.trace = note.read stage b.settings t.trace := by
    rw [hab, h.trace]
  have hstarted : a.started stage s note = b.started stage t note := by
    rw [Scope.started, Scope.started, Note.length_fresh, Note.length_fresh, htied, h.size]
  have hbase : (a.noteBase stage s note).Alike (b.noteBase stage t note) := by
    have hs :=
      (h.record (note.read stage a.settings s.trace).tones).prolongAll (note.timing a.settings)
        (note.tied stage a.settings s).1
    rw [Scope.noteBase, Scope.noteBase, ← htied, ← hread, hab]
    exact ⟨hs.trace, hs.pending, rfl, hs.active, hs.sounds⟩
  have hfresh : ∀ settings u progress, (note.fresh stage settings u progress).map Event.unplaced =
      (note.tied stage settings u).2.map (.ofSound (note.timing settings) 0 0) := by
    intro settings u progress
    rw [Note.fresh, hp]
    exact List.map_map
  refine ⟨hstarted, ?_⟩
  rw [Scope.noted_snd, Scope.noted_snd]
  refine ⟨hbase.trace, by rw [htied, hstarted], hbase.tieLeft, hbase.active, ?_⟩
  intro id
  simp only [sound?, Array.getElem?_append, hbase.size]
  split
  · exact hbase.sounds id
  · simp only [List.getElem?_toArray, ← List.getElem?_map, hfresh, htied, hab]

end Alike

end Session

end Rendition
