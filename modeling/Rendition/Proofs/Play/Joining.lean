import Rendition.Proofs.Play.Alike
import Rendition.Proofs.Play.Marking
import Rendition.Proofs.Play.Pointing
import Rendition.Proofs.Play.Sums

namespace Rendition

theorem Table.mem_of_lookup {κ α : Type} [DecidableEq κ] {k : κ} {v : α} {entries : List (κ × α)}
    (h : lookup k entries = some v) : (k, v) ∈ entries := by
  induction entries with
  | nil => cases h
  | cons entry rest ih =>
    rw [lookup] at h
    split at h
    next hk =>
      cases h
      exact hk ▸ List.mem_cons_self
    next => exact List.mem_cons_of_mem _ (ih h)

def Mark.seat (mark : Mark) : String × Nat × Nat := (mark.kind, mark.bar, mark.index)

namespace Marks

variable {marks : Marks} (inner : Marks) (group g : String) (more : List Mark) (time : Float)

def seats (marks : Marks) (g : String) : List (String × Nat × Nat) :=
  ((marks.find? g).getD []).map Mark.seat

def allSeats (entries : List (String × List Mark)) (g : String) : List (String × Nat × Nat) :=
  entries.flatMap fun entry ↦ if g = entry.1 then entry.2.map Mark.seat else []

/-- Of several entries for one group only the first has marks. -/
def Single (marks : Marks) : Prop := ∀ g, allSeats marks.entries g = marks.seats g

theorem seats_later : (more.map (·.later time)).map Mark.seat = more.map Mark.seat := by
  rw [List.map_map]
  rfl

theorem seats_add : (marks.add group more).seats g =
    marks.seats g ++ if g = group then more.map Mark.seat else [] := by
  unfold seats
  rw [find?_add]
  split
  next h => rw [h, Option.getD_some, List.map_append]
  next => rw [List.append_nil]

theorem seats_addAll : (marks.addAll inner time).seats g = marks.seats g ++
    allSeats inner.entries g := by
  obtain ⟨entries⟩ := inner
  unfold addAll allSeats
  induction entries generalizing marks with
  | nil => exact (List.append_nil _).symm
  | cons entry rest ih =>
    have hlater : (entry.2.map fun mark ↦ { mark with time := mark.time + time }).map Mark.seat =
        entry.2.map Mark.seat := seats_later entry.2 time
    rw [List.foldl_cons, ih, seats_add, hlater, List.flatMap_cons, List.append_assoc]

section Put

variable {k : String} {entries : List (String × List Mark)}

theorem allSeats_put_of_ne (h : g ≠ k) :
    allSeats (Table.put k more entries) g = allSeats entries g := by
  induction entries with
  | nil => simp [Table.put, allSeats, h]
  | cons entry rest ih =>
    rw [Table.put]
    split
    next hk => simp [allSeats, h, ← hk]
    next => exact congrArg (_ ++ ·) ih

theorem allSeats_put_self : allSeats (Table.put k more entries) k =
    more.map Mark.seat ++ (allSeats entries k).drop ((Table.lookup k entries).getD []).length := by
  induction entries with
  | nil => simp [Table.put, allSeats]
  | cons entry rest ih =>
    rw [Table.put, Table.lookup]
    split
    next hk => simp [allSeats, hk]
    next hk => simpa [allSeats, hk] using ih

end Put

theorem Single.add (h : marks.Single) : (marks.add group more).Single := by
  intro g
  rw [seats_add]
  change allSeats (Table.put group _ marks.entries) g = _
  by_cases hg : g = group
  · subst hg
    have hold : allSeats marks.entries g = ((Table.lookup g marks.entries).getD []).map Mark.seat :=
      h g
    rw [allSeats_put_self, if_pos rfl, hold, List.drop_eq_nil_of_le (by simp), List.append_nil,
      List.map_append]
    rfl
  · rw [allSeats_put_of_ne _ _ hg, if_neg hg, List.append_nil]
    exact h g

theorem Single.addAll (h : marks.Single) : (marks.addAll inner time).Single := by
  obtain ⟨entries⟩ := inner
  unfold Marks.addAll
  induction entries generalizing marks with
  | nil => exact h
  | cons entry rest ih => exact ih (h.add _ _)

theorem seats_of_empty (h : ∀ entry ∈ marks.entries, entry.2 = []) : marks.seats g = [] := by
  unfold seats
  cases hfind : marks.find? g with
  | none => rfl
  | some more =>
    obtain rfl : more = [] := h _ (Table.mem_of_lookup hfind)
    rfl

theorem single_of_empty (h : ∀ entry ∈ marks.entries, entry.2 = []) : marks.Single := by
  intro g
  rw [seats_of_empty g h]
  refine List.flatMap_eq_nil_iff.mpr ?_
  intro entry hmem
  rw [h entry hmem, List.map_nil, ite_self]

end Marks

def offBars (remarks : List Remark) : List Remark := remarks.filter (·.finding.barLength?.isNone)

@[simp] theorem offBars_append (remarks more : List Remark) :
    offBars (remarks ++ more) = offBars remarks ++ offBars more := List.filter_append ..

theorem offBars_within (remarks : List Remark) (place : Place) (time : Float) :
    offBars (remarks.map (·.within place time)) =
      (offBars remarks).map fun r ↦ { r with path := place :: r.path } := by
  induction remarks with
  | nil => rfl
  | cons r rest ih =>
    obtain ⟨finding, path⟩ := r
    cases finding <;> first | exact congrArg (_ :: ·) ih | exact ih

namespace Scope

variable {stage : Stage} {outer inner whole scope : Scope} {passages : List Passage}
  {passage : Passage} {s : Session}

def addInTurn (stage : Stage) : List Passage → Scope → Session → Scope × Session
  | [], scope, s => (scope, s)
  | passage :: rest, scope, s =>
    let (scope, s) := scope.add stage passage s
    addInTurn stage rest scope s

theorem index_absorb : (scope.absorb stage passage).progress.index = scope.progress.index := by
  change (scope.joinBars passage.progress).progress.index = _
  rw [joinBars_progress]
  split
  · exact Progress.index_lengthen ..
  · rfl

theorem marks_absorb (hp : stage.repertoire.plugins = ∅) : (scope.absorb stage passage).marks =
    scope.marks.addAll passage.marks scope.progress.duration := by
  unfold absorb
  dsimp only
  rw [hp, (scope.joinBars_recounts passage.progress).marks]
  rfl

theorem offBars_absorb : offBars (scope.absorb stage passage).remarks =
    offBars scope.remarks ++ (offBars passage.remarks).map fun r ↦
    { r with path := scope.place :: r.path } := by
  have hjoin : offBars (scope.joinBars passage.progress).remarks = offBars scope.remarks := by
    have hbar (beats time : Float) : offBars (scope.barRemarks beats time) = [] := by
      unfold barRemarks
      split <;> rfl
    rw [joinBars_eq]
    split
    · rfl
    · dsimp only
      rw [offBars_append]
      split
      · exact List.append_nil _
      · rw [hbar, List.append_nil]
  change offBars ((scope.joinBars passage.progress).remarks ++ _) = _
  rw [offBars_append, offBars_within, hjoin]

def Lifts (outer : Scope) (r r' : Remark) : Prop :=
  r'.finding = r.finding ∧ ∃ bar index path, r.path = ⟨bar, index⟩ :: path ∧
    r'.path = ⟨outer.progress.barCount + bar, outer.progress.index⟩ :: path

/-- A passage that has gone on from `outer` by what lies in `inner`. -/
structure Comprises (outer inner whole : Scope) : Prop where
  index : whole.progress.index = outer.progress.index
  events : whole.events = outer.events ++ inner.events
  barCount : whole.progress.barCount = outer.progress.barCount + inner.progress.barCount
  after : ∀ kind, kind ∈ whole.progress.after ↔ kind ∈ outer.progress.after ∨
    kind ∈ inner.progress.after
  marks : ∀ group, whole.marks.seats group = outer.marks.seats group ++ inner.marks.seats group
  remarks : ∃ added, offBars whole.remarks = offBars outer.remarks ++ added ∧
    List.Forall₂ outer.Lifts (offBars inner.remarks) added

namespace Comprises

theorem refl (hevents : inner.events = []) (hcount : inner.progress.barCount = 0)
    (hafter : inner.progress.after = []) (hmarks : ∀ group, inner.marks.seats group = [])
    (hremarks : inner.remarks = []) :
    outer.Comprises inner outer where
  index := rfl
  events := by rw [hevents, List.append_nil]
  barCount := by rw [hcount, Nat.add_zero]
  after kind := by rw [hafter]; simp
  marks group := by rw [hmarks, List.append_nil]
  remarks := ⟨[], (List.append_nil _).symm, by rw [hremarks]; exact .nil⟩

theorem absorb (hp : stage.repertoire.plugins = ∅) (h : outer.Comprises inner whole) (index : Nat)
    (passage : Passage) :
    outer.Comprises ((inner.atIndex index).absorb stage passage) (whole.absorb stage passage) where
  index := index_absorb.trans h.index
  events := by
    rw [absorb_events, absorb_events, atIndex_events, h.events, List.append_assoc]
  barCount := by
    rw [barCount_absorb, barCount_absorb, h.barCount]
    exact Nat.add_assoc ..
  after kind := by
    rw [mem_after_absorb, mem_after_absorb, h.after, atIndex_after, or_assoc]
  marks group := by
    rw [marks_absorb hp, marks_absorb hp, Marks.seats_addAll, Marks.seats_addAll, h.marks,
      List.append_assoc]
    rfl
  remarks := by
    obtain ⟨added, hadded, hlifts⟩ := h.remarks
    refine ⟨_, by rw [offBars_absorb, hadded, List.append_assoc], ?_⟩
    rw [offBars_absorb]
    refine List.rel_append hlifts ?_
    rw [List.forall₂_map_left_iff, List.forall₂_map_right_iff, List.forall₂_same]
    intro r hr
    refine ⟨rfl, inner.progress.barCount, index, r.path, rfl, ?_⟩
    rw [← h.barCount, ← h.index]
    rfl

theorem addEach (hp : stage.repertoire.plugins = ∅) (h : outer.Comprises inner whole) (index : Nat)
    (passages : List Passage) (s t : Session) :
    outer.Comprises (addEach stage index passages inner s).1
      (addInTurn stage passages whole t).1 := by
  induction passages generalizing inner whole index s t with
  | nil => exact h
  | cons passage rest ih => exact ih (h.absorb hp index passage) _ _ _

end Comprises

section Joined

def result (scope : Scope) (trace : Trace) (tieLeft : Bool) : Passage where
  events := scope.events
  marks := scope.marks
  remarks := scope.remarks
  progress := { scope.progress with trace, tieLeft }

/-- The scope in which passages are joined to one, once they have all been added to it,
and the session then. -/
abbrev joining (scope : Scope) (stage : Stage) (passages : List Passage) (s : Session) :
    Scope × Session :=
  addEach stage 0 passages (enter stage scope.settings s true) s

theorem voices_addEach (index : Nat) (passages : List Passage) (scope : Scope) (s : Session) :
    (addEach stage index passages scope s).1.progress.voices = scope.progress.voices := by
  induction passages generalizing index scope s with
  | nil => rfl
  | cons passage rest ih => exact (ih _ _ _).trans (voices_absorb ..)

theorem join_eq (scope : Scope) (stage : Stage) (passages : List Passage) (s : Session) :
    scope.join stage passages s =
      ((scope.joining stage passages s).1.result (passages.flatMap (·.progress.trace))
        (scope.joining stage passages s).2.tieLeft, (scope.joining stage passages s).2) := by
  unfold join
  dsimp only
  rw [conclude_eq (voices_addEach 0 passages _ s)]
  rfl

theorem single_addEach (hp : stage.repertoire.plugins = ∅) (h : scope.marks.Single) (index : Nat)
    (passages : List Passage) (s : Session) :
    (addEach stage index passages scope s).1.marks.Single := by
  induction passages generalizing index scope s with
  | nil => exact h
  | cons passage rest ih =>
    have habsorbed : ((scope.atIndex index).absorb stage passage).marks.Single := by
      rw [marks_absorb hp]
      exact Marks.Single.addAll _ _ h
    exact ih habsorbed _ _

theorem empty_of_mem_enter {settings : Settings} {nested : Bool} :
    ∀ entry ∈ (enter stage settings s nested).marks.entries, entry.2 = [] := by
  intro entry hmem
  obtain ⟨group, -, rfl⟩ := List.mem_map.mp hmem
  rfl

/-- A remark of a passage that has been joined, and the same one made in the passage around: it is
led to by a place in the joined passage besides. -/
def Deepens (outer : Scope) (r r' : Remark) : Prop :=
  ∃ inner : Remark, r = { inner with path := outer.place :: inner.path } ∧ outer.Lifts inner r'

/-- What has come of the same passages, joined to one in `whole` and one after another in
`parts`, but for its times. -/
structure GoesOnAlike (outer whole parts : Scope) : Prop where
  events : whole.events = parts.events
  barCount : whole.progress.barCount = parts.progress.barCount
  after : ∀ kind, kind ∈ whole.progress.after ↔ kind ∈ parts.progress.after
  marks : ∀ group, whole.marks.seats group = parts.marks.seats group
  remarks : ∃ added added', offBars whole.remarks = offBars outer.remarks ++ added ∧
    offBars parts.remarks = offBars outer.remarks ++ added' ∧
    List.Forall₂ outer.Deepens added added'

theorem Comprises.goesOnAlike (hp : stage.repertoire.plugins = ∅) (h : outer.Comprises inner whole)
    (hm : inner.marks.Single) (trace : Trace) (tieLeft : Bool) :
    outer.GoesOnAlike (outer.absorb stage (inner.result trace tieLeft)) whole where
  events := by
    rw [absorb_events, h.events]
    rfl
  barCount := by
    rw [barCount_absorb, h.barCount]
    rfl
  after kind := by
    rw [mem_after_absorb, h.after]
    rfl
  marks group := by
    rw [marks_absorb hp, Marks.seats_addAll, h.marks, ← hm]
    rfl
  remarks := by
    obtain ⟨added, hadded, hlifts⟩ := h.remarks
    refine ⟨_, added, offBars_absorb, hadded, ?_⟩
    rw [List.forall₂_map_left_iff]
    exact hlifts.imp fun r r' hr ↦ ⟨r, rfl, hr⟩

theorem goesOnAlike_join (hp : stage.repertoire.plugins = ∅) (scope : Scope)
    (passages : List Passage) (s : Session) :
    scope.GoesOnAlike (scope.absorb stage (scope.join stage passages s).1)
      (addInTurn stage passages scope s).1 := by
  have hmarks : (enter stage scope.settings s true).marks.Single :=
    Marks.single_of_empty empty_of_mem_enter
  have henter : scope.Comprises (enter stage scope.settings s true) scope :=
    .refl rfl rfl rfl (fun group ↦ Marks.seats_of_empty group empty_of_mem_enter) rfl
  rw [join_eq]
  exact (henter.addEach hp 0 passages s s).goesOnAlike hp
    (single_addEach hp hmarks 0 passages s) _ _

theorem alike_addEach {t : Session} (h : s.Alike t) (index : Nat) (passages : List Passage)
    (scope : Scope) :
    (addEach stage index passages scope s).2.Alike t := by
  induction passages generalizing index scope s with
  | nil => exact h
  | cons passage rest ih => exact ih (h.later _ _ _) _ _

theorem alike_addInTurn {t : Session} (h : s.Alike t) (passages : List Passage) (scope : Scope) :
    (addInTurn stage passages scope s).2.Alike t := by
  induction passages generalizing scope s with
  | nil => exact h
  | cons passage rest ih => exact ih (h.later _ _ _) _

theorem alike_join (scope : Scope) (passages : List Passage) (s : Session) :
    (scope.add stage (scope.join stage passages s).1 (scope.join stage passages s).2).2.Alike
      (addInTurn stage passages scope s).2 := by
  rw [join_eq]
  have hjoin : (scope.joining stage passages s).2.Alike (addInTurn stage passages scope s).2 :=
    alike_addEach (alike_addInTurn (.refl s) passages scope).symm 0 passages _
  exact hjoin.later _ _ _

end Joined

end Scope

end Rendition
