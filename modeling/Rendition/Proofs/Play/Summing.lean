import Rendition.Proofs.Number.Adding
import Rendition.Proofs.Play.Store
import Rendition.Proofs.Play.Sums

namespace Rendition

open Number

namespace Progress

/-- No bar has closed on the way from `p` to `q`, which `j` counts. -/
structure KeepsOpen (p j q : Progress) : Prop where
  beatsOpen : Adds p.beatsOpen j.beatsOpen q.beatsOpen
  barFirst : p.barCount ≠ 0 → q.barFirst = p.barFirst
  barLast : p.barCount = 0 → q.barLast = p.barLast
  firstBarTime : q.firstBarTime = p.firstBarTime

/-- Bars have closed on the way from `p` to `q`, which `j` counts. The first of them is the
one that `p` had open. -/
structure Closes (p j q : Progress) : Prop where
  barLast : q.barLast = j.barLast
  fresh : p.barCount = 0 → Adds p.beatsOpen j.barFirst q.barFirst ∧
    Adds p.duration j.firstBarTime q.firstBarTime
  frozen : p.barCount ≠ 0 → q.barFirst = p.barFirst ∧ q.firstBarTime = p.firstBarTime

/-- As numbers, `q` counts what `p` and `j` do together. -/
structure Totals (p j q : Progress) : Prop where
  duration : Adds p.duration j.duration q.duration
  beatCount : Adds p.beatCount j.beatCount q.beatCount
  barCount : q.barCount = p.barCount + j.barCount
  keepsOpen : j.barCount = 0 → p.KeepsOpen j q
  closes : j.barCount ≠ 0 → p.Closes j q

structure CountsSame (q q' : Progress) : Prop where
  duration : Same q.duration q'.duration
  beatCount : Same q.beatCount q'.beatCount
  barFirst : Same q.barFirst q'.barFirst
  barLast : Same q.barLast q'.barLast
  firstBarTime : Same q.firstBarTime q'.firstBarTime

/-- The additions with which the counters of an inner passage are added round nothing off. -/
structure AddsExactly (p inner : Progress) : Prop where
  beatsOpen : ExactSum p.beatsOpen inner.barFirst
  duration : ExactSum p.duration inner.duration
  beatCount : ExactSum p.beatCount inner.beatCount
  firstBarTime : inner.barCount ≠ 0 → ExactSum p.duration inner.firstBarTime

end Progress

namespace Scope

section Counters

variable (stage : Stage) (scope : Scope) (passage : Passage)

theorem beatCount_absorb : (scope.absorb stage passage).progress.beatCount =
    scope.progress.beatCount + passage.progress.beatCount := by
  have hjoin : (scope.joinBars passage.progress).progress.beatCount = scope.progress.beatCount := by
    rw [joinBars_progress]
    split
    · exact beatCount_lengthen ..
    · rfl
  exact congrArg (· + _) hjoin

theorem barFirst_absorb : (scope.absorb stage passage).progress.barFirst =
    if scope.progress.barCount = 0 then scope.progress.beatsOpen + passage.progress.barFirst
    else scope.progress.barFirst := by
  change (scope.joinBars passage.progress).progress.barFirst = _
  rw [joinBars_progress]
  by_cases hp : scope.progress.barCount = 0 <;> split <;>
    simp [Progress.lengthen, Progress.joined, Progress.beatsOpen, hp]

theorem barLast_absorb : (scope.absorb stage passage).progress.barLast =
    if passage.progress.barCount ≠ 0 then passage.progress.barLast
    else if scope.progress.barCount = 0 then scope.progress.barLast
    else scope.progress.barLast + passage.progress.barFirst := by
  change (scope.joinBars passage.progress).progress.barLast = _
  rw [joinBars_progress]
  by_cases hp : scope.progress.barCount = 0 <;> split <;>
    simp [Progress.lengthen, Progress.joined, *]

end Counters

end Scope

namespace Progress.Totals

variable {p j q q' : Progress} {stage : Stage} {inner whole : Scope} {passage : Passage}

theorem start (hduration : Adds p.duration 0 p.duration) (hbeats : Adds p.beatCount 0 p.beatCount)
    (hopen : Adds p.beatsOpen 0 p.beatsOpen) : p.Totals {} p where
  duration := hduration
  beatCount := hbeats
  barCount := rfl
  keepsOpen _ := ⟨hopen, fun _ ↦ rfl, fun _ ↦ rfl, rfl⟩
  closes h := absurd rfl h

theorem update (h : p.Totals j q) (index : Nat) (trace : Trace) (tieLeft : Bool) :
    p.Totals { j with index, trace, tieLeft } q where
  duration := h.duration
  beatCount := h.beatCount
  barCount := h.barCount
  keepsOpen hj := ⟨(h.keepsOpen hj).beatsOpen, (h.keepsOpen hj).barFirst, (h.keepsOpen hj).barLast,
    (h.keepsOpen hj).firstBarTime⟩
  closes hj := ⟨(h.closes hj).barLast, (h.closes hj).fresh, (h.closes hj).frozen⟩

theorem absorb (h : p.Totals inner.progress whole.progress)
    (hi : inner.progress.AddsExactly passage.progress)
    (hw : whole.progress.AddsExactly passage.progress) :
    p.Totals (inner.absorb stage passage).progress (whole.absorb stage passage).progress where
  duration := by
    rw [Scope.duration_absorb, Scope.duration_absorb]
    exact h.duration.add hi.duration hw.duration
  beatCount := by
    rw [Scope.beatCount_absorb, Scope.beatCount_absorb]
    exact h.beatCount.add hi.beatCount hw.beatCount
  barCount := by
    rw [Scope.barCount_absorb, Scope.barCount_absorb, h.barCount, Nat.add_assoc]
  keepsOpen hcount := by
    rw [Scope.barCount_absorb] at hcount
    obtain ⟨hj, hx⟩ := Nat.add_eq_zero_iff.mp hcount
    have hopen := h.keepsOpen hj
    have hinner : passage.progress.beatsOpen = passage.progress.barFirst := if_pos hx
    constructor
    · rw [Scope.beatsOpen_absorb, Scope.beatsOpen_absorb, if_pos hx, if_pos hx, hinner]
      exact hopen.beatsOpen.add hi.beatsOpen hw.beatsOpen
    · intro hp
      rw [Scope.barFirst_absorb, if_neg (by rw [h.barCount]; omega), hopen.barFirst hp]
    · intro hp
      rw [Scope.barLast_absorb, if_neg (not_not.mpr hx), if_pos (by rw [h.barCount]; omega),
        hopen.barLast hp]
    · rw [Scope.firstBarTime_absorb, if_neg (fun hboth ↦ hboth.2 hx), hopen.firstBarTime]
  closes hcount := by
    rw [Scope.barCount_absorb] at hcount
    refine ⟨?_, fun hp ↦ ?_, fun hp ↦ ?_⟩
    · rw [Scope.barLast_absorb, Scope.barLast_absorb]
      by_cases hx : passage.progress.barCount = 0
      · have hj : inner.progress.barCount ≠ 0 := by omega
        rw [if_neg (not_not.mpr hx), if_neg (not_not.mpr hx), if_neg hj,
          if_neg (by rw [h.barCount]; omega), (h.closes hj).barLast]
      · rw [if_pos hx, if_pos hx]
    · rw [Scope.barFirst_absorb, Scope.barFirst_absorb, Scope.firstBarTime_absorb,
        Scope.firstBarTime_absorb]
      by_cases hj : inner.progress.barCount = 0
      · -- The first bar to close is that of this passage.
        have hx : passage.progress.barCount ≠ 0 := by omega
        have hq : whole.progress.barCount = 0 := by rw [h.barCount]; omega
        rw [if_pos hj, if_pos hq, if_pos ⟨hj, hx⟩, if_pos ⟨hq, hx⟩]
        exact ⟨(h.keepsOpen hj).beatsOpen.add hi.beatsOpen hw.beatsOpen,
          h.duration.add (hi.firstBarTime hx) (hw.firstBarTime hx)⟩
      · have hq : whole.progress.barCount ≠ 0 := by rw [h.barCount]; omega
        rw [if_neg hj, if_neg hq, if_neg (fun hboth ↦ hj hboth.1), if_neg (fun hboth ↦ hq hboth.1)]
        exact (h.closes hj).fresh hp
    · have hq : whole.progress.barCount ≠ 0 := by rw [h.barCount]; omega
      rw [Scope.barFirst_absorb, Scope.firstBarTime_absorb, if_neg hq,
        if_neg (fun hboth ↦ hq hboth.1)]
      by_cases hj : inner.progress.barCount = 0
      · exact ⟨(h.keepsOpen hj).barFirst hp, (h.keepsOpen hj).firstBarTime⟩
      · exact (h.closes hj).frozen hp

theorem of_absorb {scope : Scope} (h : scope.progress.AddsExactly passage.progress) :
    scope.progress.Totals passage.progress (scope.absorb stage passage).progress where
  duration := by
    rw [Scope.duration_absorb]
    exact h.duration.adds
  beatCount := by
    rw [Scope.beatCount_absorb]
    exact h.beatCount.adds
  barCount := Scope.barCount_absorb ..
  keepsOpen hx := by
    have hinner : passage.progress.beatsOpen = passage.progress.barFirst := if_pos hx
    constructor
    · rw [Scope.beatsOpen_absorb, if_pos hx, hinner]
      exact h.beatsOpen.adds
    · intro hp
      rw [Scope.barFirst_absorb, if_neg hp]
    · intro hp
      rw [Scope.barLast_absorb, if_neg (not_not.mpr hx), if_pos hp]
    · rw [Scope.firstBarTime_absorb, if_neg fun hboth ↦ hboth.2 hx]
  closes hx := by
    refine ⟨?_, fun hp ↦ ?_, fun hp ↦ ?_⟩
    · rw [Scope.barLast_absorb, if_pos hx]
    · rw [Scope.barFirst_absorb, Scope.firstBarTime_absorb, if_pos hp, if_pos ⟨hp, hx⟩]
      exact ⟨h.beatsOpen.adds, (h.firstBarTime hx).adds⟩
    · rw [Scope.barFirst_absorb, Scope.firstBarTime_absorb, if_neg hp,
        if_neg fun hboth ↦ hp hboth.1]
      exact ⟨rfl, rfl⟩

theorem countsSame (h : p.Totals j q) (h' : p.Totals j q') : q.CountsSame q' where
  duration := h.duration.same h'.duration
  beatCount := h.beatCount.same h'.beatCount
  barFirst := by
    by_cases hp : p.barCount = 0
    · by_cases hj : j.barCount = 0
      · have hopen := (h.keepsOpen hj).beatsOpen.same (h'.keepsOpen hj).beatsOpen
        rwa [beatsOpen, beatsOpen, if_pos (by rw [h.barCount, hp, hj]),
          if_pos (by rw [h'.barCount, hp, hj])] at hopen
      · exact ((h.closes hj).fresh hp).1.same ((h'.closes hj).fresh hp).1
    · by_cases hj : j.barCount = 0
      · exact .inl (((h.keepsOpen hj).barFirst hp).trans ((h'.keepsOpen hj).barFirst hp).symm)
      · exact .inl (((h.closes hj).frozen hp).1.trans ((h'.closes hj).frozen hp).1.symm)
  barLast := by
    by_cases hj : j.barCount = 0
    · by_cases hp : p.barCount = 0
      · exact .inl (((h.keepsOpen hj).barLast hp).trans ((h'.keepsOpen hj).barLast hp).symm)
      · have hopen := (h.keepsOpen hj).beatsOpen.same (h'.keepsOpen hj).beatsOpen
        rwa [beatsOpen, beatsOpen, if_neg (by rw [h.barCount, hj]; exact hp),
          if_neg (by rw [h'.barCount, hj]; exact hp)] at hopen
    · exact .inl ((h.closes hj).barLast.trans (h'.closes hj).barLast.symm)
  firstBarTime := by
    by_cases hj : j.barCount = 0
    · exact .inl ((h.keepsOpen hj).firstBarTime.trans (h'.keepsOpen hj).firstBarTime.symm)
    · by_cases hp : p.barCount = 0
      · exact ((h.closes hj).fresh hp).2.same ((h'.closes hj).fresh hp).2
      · exact .inl (((h.closes hj).frozen hp).2.trans ((h'.closes hj).frozen hp).2.symm)

end Progress.Totals

theorem optionRel_map {α β γ δ : Type} {R : α → β → Prop} {S : γ → δ → Prop} {f : α → γ} {g : β → δ}
    {a : Option α} {b : Option β} (h : Option.Rel R a b)
    (hs : ∀ x ∈ a, ∀ y ∈ b, R x y → S (f x) (g y)) :
    Option.Rel S (a.map f) (b.map g) := by
  cases h with
  | none => exact .none
  | some hxy => exact .some (hs _ rfl _ rfl hxy)

theorem optionRel_map_right {α β δ : Type} {R : α → β → Prop} {S : α → δ → Prop} {g : β → δ}
    {a : Option α} {b : Option β} (h : Option.Rel R a b) (hs : ∀ x, ∀ y ∈ b, R x y → S x (g y)) :
    Option.Rel S a (b.map g) := by
  cases h with
  | none => exact .none
  | some hxy => exact .some (hs _ _ rfl hxy)

def OnsetMoved (delta : Float × Float) (times : Nat) (o o' : Float × Float) : Prop :=
  Moved delta.1 times o.1 o'.1 ∧ Moved delta.2 times o.2 o'.2

namespace Session

def laterSums (time beats : Float) : List Nat → Session → List (Float × Float)
  | [], _ => []
  | id :: ids, s =>
    ((s.onset? id).toList.flatMap fun o ↦ [(o.1, time), (o.2, beats)]) ++
      laterSums time beats ids (s.revise id (·.later time beats))

variable {s t : Session} {delta : Float × Float} {ids more : List Nat}
  {time beats time' beats' : Float}

theorem onset?_revise_later (s : Session) (i id : Nat) (time beats : Float) :
    (s.revise i (·.later time beats)).onset? id =
      if i = id then (s.onset? id).map fun o ↦ (o.1 + time, o.2 + beats) else s.onset? id := by
  rw [onset?_revise]
  split
  · rw [onset?, Option.map_map]
    rfl
  · rfl

/-- The events begin in `t` when they do in `s`, but that those listed begin later, each as
often as it is listed. -/
def Lags (delta : Float × Float) (ids : List Nat) (s t : Session) : Prop :=
  ∀ id, Option.Rel (OnsetMoved delta (ids.count id)) (s.onset? id) (t.onset? id)

theorem exactly_laterSums_cons {id : Nat} : Exactly (s.laterSums time beats (id :: ids)) ↔
    (∀ o ∈ s.onset? id, ExactSum o.1 time ∧ ExactSum o.2 beats) ∧
      Exactly ((s.revise id (·.later time beats)).laterSums time beats ids) := by
  rw [laterSums, exactly_append]
  refine and_congr_left' ?_
  cases s.onset? id <;> simp [Exactly]

namespace Lags

theorem refl (delta : Float × Float) (s : Session) : Lags delta [] s s := by
  intro id
  cases s.onset? id with
  | none => exact .none
  | some o => exact .some ⟨rfl, rfl⟩

theorem revise (h : Lags delta ids s t) (i : Nat) (htime : Adds delta.1 time time')
    (hbeats : Adds delta.2 beats beats')
    (hs : ∀ o ∈ s.onset? i, ExactSum o.1 time ∧ ExactSum o.2 beats)
    (ht : ∀ o ∈ t.onset? i, ExactSum o.1 time' ∧ ExactSum o.2 beats') :
    Lags delta (ids ++ [i]) (s.revise i (·.later time beats))
      (t.revise i (·.later time' beats')) := by
  intro id
  rw [onset?_revise_later, onset?_revise_later, List.count_append]
  by_cases hid : i = id
  · subst hid
    rw [if_pos rfl, if_pos rfl, List.count_singleton_self]
    refine optionRel_map (h i) ?_
    intro o ho o' ho' hmoved
    exact ⟨hmoved.1.add htime (hs o ho).1 (ht o' ho').1,
      hmoved.2.add hbeats (hs o ho).2 (ht o' ho').2⟩
  · have hnone : List.count id [i] = 0 := List.count_eq_zero_of_not_mem (by simpa using Ne.symm hid)
    rw [if_neg hid, if_neg hid, hnone]
    exact h id

theorem later (h : Lags delta ids s t) (htime : Adds delta.1 time time')
    (hbeats : Adds delta.2 beats beats') (hs : Exactly (s.laterSums time beats more))
    (ht : Exactly (t.laterSums time' beats' more)) :
    Lags delta (ids ++ more) (s.later more time beats) (t.later more time' beats') := by
  induction more generalizing ids s t with
  | nil =>
    rw [List.append_nil]
    exact h
  | cons i more ih =>
    obtain ⟨hsi, hs⟩ := exactly_laterSums_cons.mp hs
    obtain ⟨hti, ht⟩ := exactly_laterSums_cons.mp ht
    rw [List.append_cons]
    exact ih (h.revise i htime hbeats hsi hti) hs ht

theorem move (h : Lags delta ids s t) (ht : Exactly (t.laterSums delta.1 delta.2 more)) :
    Lags delta (ids ++ more) s (t.later more delta.1 delta.2) := by
  induction more generalizing ids t with
  | nil =>
    rw [List.append_nil]
    exact h
  | cons i more ih =>
    obtain ⟨hti, ht⟩ := exactly_laterSums_cons.mp ht
    rw [List.append_cons]
    refine ih (fun id ↦ ?_) ht
    rw [onset?_revise_later, List.count_append]
    by_cases hid : i = id
    · subst hid
      rw [if_pos rfl, List.count_singleton_self]
      refine optionRel_map_right (h i) ?_
      intro o o' ho' hmoved
      exact ⟨hmoved.1.move (hti o' ho').1, hmoved.2.move (hti o' ho').2⟩
    · have hnone : List.count id [i] = 0 :=
        List.count_eq_zero_of_not_mem (by simpa using Ne.symm hid)
      rw [if_neg hid, hnone]
      exact h id

theorem same {u : Session} (h : Lags delta ids s t) (h' : Lags delta ids s u) (id : Nat) :
    Option.Rel (fun o o' ↦ Same o.1 o'.1 ∧ Same o.2 o'.2) (t.onset? id) (u.onset? id) := by
  have ht := h id
  have hu := h' id
  cases hs : s.onset? id with
  | none =>
    rw [hs] at ht hu
    generalize t.onset? id = a at *
    generalize u.onset? id = b at *
    cases ht
    cases hu
    exact .none
  | some o =>
    rw [hs] at ht hu
    generalize t.onset? id = a at *
    generalize u.onset? id = b at *
    cases ht with
    | some hmoved =>
      cases hu with
      | some hmoved' => exact .some ⟨hmoved.1.same hmoved'.1, hmoved.2.same hmoved'.2⟩

end Lags

end Session

end Rendition
