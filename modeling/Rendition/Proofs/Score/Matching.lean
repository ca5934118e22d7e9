import Rendition.Proofs.Score.Editing
import Rendition.Proofs.Score.Repetition

namespace Rendition

namespace Remark

/-- A remark regardless of the indices of its places. -/
def unnumbered (r : Remark) : Remark :=
  { r with path := r.path.map fun place ↦ { place with index := 0 } }

end Remark

open Repetition

/-- The symbol does nothing where no beats are open, or, unless that `rests` is known, nowhere. -/
def Symbol.isIdle (rests : Bool) (symbol : Symbol) : Bool :=
  symbol.isInert || rests && symbol.isPlainBar

/-- Two lists of symbols, those of the second edited, that are the same but for idle symbols. At the
beginning `rests` tells whether no beats are known to be open; later it is known after bar lines,
and everywhere if `loose`. -/
inductive Matched (edit : List Symbol → List Symbol) (loose : Bool) : (rests : Bool) → List Symbol →
    List Symbol → Prop
  | nil {rests} : Matched edit loose rests [] []
  | both {rests x xs ys} (h : Matched edit loose (loose || x.isBarLine) xs ys) :
      Matched edit loose rests (x :: xs) (x.edited edit :: ys)
  | left {rests x xs ys} (hx : x.isIdle rests) (h : Matched edit loose rests xs ys) :
      Matched edit loose rests (x :: xs) ys
  | right {rests y xs ys} (hy : y.isIdle rests) (h : Matched edit loose rests xs ys) :
      Matched edit loose rests xs (y :: ys)

namespace Symbol

variable {rests rests' : Bool} {symbol : Symbol}

theorem isIdle_mono (h : rests → rests') (hs : symbol.isIdle rests) : symbol.isIdle rests' := by
  simp only [isIdle, Bool.or_eq_true, Bool.and_eq_true] at hs ⊢
  exact hs.imp_right fun hbar ↦ ⟨h hbar.1, hbar.2⟩

theorem inert_or_plainBar (h : symbol.isIdle rests) :
    symbol.isInert ∨ rests ∧ symbol = plainBar := by
  simp only [isIdle, Bool.or_eq_true, Bool.and_eq_true] at h
  exact h.imp_right fun hbar ↦ ⟨hbar.1, eq_plainBar hbar.2⟩

theorem isBarLine_of_isInert (h : symbol.isInert) : symbol.isBarLine = false := by
  cases symbol with
  | clef | comment | space => rfl
  | note | call | phrase | theme | tie | barLine | marking => cases h

theorem rests_of_isIdle (h : symbol.isIdle rests) (hbar : symbol.isBarLine) : rests := by
  obtain hi | ⟨hr, -⟩ := inert_or_plainBar h
  · rw [isBarLine_of_isInert hi] at hbar
    cases hbar
  · exact hr

theorem eq_none_of_isIdle {β : Type} {g : Symbol → Option β}
    (hg : ∀ x, x.isBarLine = false → g x = none) (hbar : g plainBar = none)
    (h : symbol.isIdle rests) : g symbol = none := by
  obtain hi | ⟨-, rfl⟩ := inert_or_plainBar h
  · exact hg symbol (isBarLine_of_isInert hi)
  · exact hbar

theorem apply_edited {β : Type} {g : Symbol → Option β} (hg : ∀ x, x.isBarLine = false → g x = none)
    (edit : List Symbol → List Symbol) (symbol : Symbol) : g (symbol.edited edit) = g symbol := by
  cases h : symbol.isBarLine with
  | true => rw [edited_of_isBarLine edit h]
  | false => rw [hg symbol h, hg _ ((isBarLine_edited edit symbol).trans h)]

end Symbol

namespace Repetition

theorem written?_of_not_isBarLine (x : Symbol) (h : x.isBarLine = false) : written? x = none := by
  cases x with
  | barLine bar => cases h
  | note | call | phrase | theme | tie | clef | comment | space | marking => rfl

theorem unexpectedOrder?_of_not_isBarLine (x : Symbol) (h : x.isBarLine = false) :
    unexpectedOrder? x = none := by
  cases x with
  | barLine bar => cases h
  | note | call | phrase | theme | tie | clef | comment | space | marking => rfl

/-- The orders once the default volta, if it is still to come, has the passes in `free`. -/
def fill : (free : Option (List Nat)) → List (Option (List Nat)) → List (Option (List Nat))
  | some free, orders => fillDefault free orders
  | none, orders => orders

theorem fill_none (free : Option (List Nat)) (orders : List (Option (List Nat))) :
    fill free (none :: orders) = none :: fill free orders := by
  cases free <;> rfl

theorem exists_fill_cons (free : Option (List Nat)) (order : Option (List Nat)) :
    ∃ order' free', ∀ orders, fill free (order :: orders) = order' :: fill free' orders := by
  match free, order with
  | none, order => exact ⟨order, none, fun _ ↦ rfl⟩
  | some free, none => exact ⟨none, some free, fun _ ↦ rfl⟩
  | some free, some [] => exact ⟨some free, none, fun _ ↦ rfl⟩
  | some free, some (pass :: passes) => exact ⟨some (pass :: passes), some free, fun _ ↦ rfl⟩

theorem unclaimed_eq (content : List Symbol) (passes : Nat) :
    unclaimed (content.map written?) passes =
    (List.range' 1 passes).filter fun pass ↦
    !(content.filterMap written?).any (·.contains pass) := by
  unfold unclaimed
  simp only [List.any_map, List.any_filterMap]
  rfl

theorem length_codas (content : List Symbol) :
    (codas content).length = content.countP Symbol.isCoda := by
  have hfst : content = content.zipIdx.map Prod.fst := (List.zipIdx_map_fst 0 content).symm
  rw [codas, List.length_map, ← List.countP_eq_length_filter,
    congrArg (List.countP Symbol.isCoda) hfst, List.countP_map]
  rfl

theorem take_codas (content : List Symbol) :
    (match (codas content).head? with | some cut => content.take cut | none => content) =
      content.takeWhile (!·.isCoda) := by
  rw [head?_codas, List.takeWhile_eq_take_findIdx_not]
  simp only [Bool.not_not]
  cases h : content.findIdx? Symbol.isCoda with
  | none => rw [List.findIdx_eq_length_of_false (by simpa using h), List.take_length]
  | some cut => rw [(List.findIdx?_eq_some_iff_findIdx_eq.mp h).2]

theorem withCoda_fst (content : List Symbol) (times : Int) : (withCoda content times).1 =
    match times.natAbs with
    | 0 => []
    | n + 1 =>
      (List.replicate n (body content times)).flatten ++ (body content times).takeWhile
        (!·.isCoda) := by
  have htake := take_codas (body content times)
  unfold withCoda
  dsimp only
  cases h : (codas (body content times)).head? with
  | none =>
    rw [h] at htake
    cases times.natAbs with
    | zero => exact copies_eq 0 _
    | succ n =>
      simp only [copies_eq, ← htake]
      rw [List.replicate_succ', List.flatten_append, List.flatten_singleton]
  | some cut =>
    rw [h] at htake
    cases times.natAbs with
    | zero => exact copies_eq 0 _
    | succ n => simp only [copies_eq, ← htake]

def somewhere (finding : Finding) : Remark := .located finding {}

theorem unnumbered_amiss (finding : Finding) (indices : List Nat) :
    (indices.map (amiss finding)).map Remark.unnumbered =
      List.replicate indices.length (somewhere finding) := by
  rw [List.map_map, ← List.map_const']
  rfl

theorem countP_body (content : List Symbol) (times : Int) :
    (body content times).countP Symbol.isCoda = content.countP Symbol.isCoda := by
  unfold body
  split
  · rw [List.countP_append]
    rfl
  · rfl

theorem unnumbered_unfold (content : List Symbol) (times : Int) :
    (unfold content times).2.map Remark.unnumbered =
      if 0 < times then List.replicate (content.countP Symbol.isCoda) (somewhere .unexpectedCoda)
      else
        (content.filterMap unexpectedOrder?).map
          (fun order ↦ somewhere (.unexpectedVolta order)) ++
        List.replicate (content.countP Symbol.isCoda - 1) (somewhere .multiCoda) := by
  unfold unfold
  split
  · rw [withVoltas, unnumbered_amiss, length_codas]
  · rw [withCoda, List.map_append, unnumbered_amiss, List.length_drop, length_codas, countP_body]
    congr 1
    have hfst : content = content.zipIdx.map Prod.fst := (List.zipIdx_map_fst 0 content).symm
    rw [congrArg (List.filterMap unexpectedOrder?) hfst, List.filterMap_map, List.map_filterMap,
      List.map_filterMap]
    simp only [Option.map_map]
    rfl

end Repetition

namespace Matched

variable {edit : List Symbol → List Symbol} {loose rests rests' : Bool}
  {xs ys xs' ys' : List Symbol}

theorem mono (hr : rests → rests') (h : Matched edit loose rests xs ys) :
    Matched edit loose rests' xs ys := by
  induction h with
  | nil => exact .nil
  | both h => exact .both h
  | left hx _ ih => exact .left (Symbol.isIdle_mono hr hx) (ih hr)
  | right hy _ ih => exact .right (Symbol.isIdle_mono hr hy) (ih hr)

theorem append (hr : loose → rests) (h : Matched edit loose rests xs ys)
    (h' : Matched edit loose loose xs' ys') :
    Matched edit loose rests (xs ++ xs') (ys ++ ys') := by
  induction h with
  | nil => exact h'.mono hr
  | both _ ih =>
    refine .both (ih fun hl ↦ ?_)
    rw [hl]
    rfl
  | left hx _ ih => exact .left hx (ih hr)
  | right hy _ ih => exact .right hy (ih hr)

theorem append_bar (h : Matched edit loose rests xs ys) (h' : Matched edit loose true xs' ys') :
    Matched edit loose rests (xs ++ plainBar :: xs') (ys ++ plainBar :: ys') := by
  induction h with
  | nil =>
    refine .both (x := plainBar) (h'.mono fun _ ↦ ?_)
    exact Bool.or_true loose
  | both _ ih => exact .both ih
  | left hx _ ih => exact .left hx ih
  | right hy _ ih => exact .right hy ih

theorem flatten_replicate (n : Nat) (h : Matched edit loose loose xs ys)
    (h' : Matched edit loose loose xs' ys') :
    Matched edit loose loose ((List.replicate n xs).flatten ++ xs')
      ((List.replicate n ys).flatten ++ ys') := by
  induction n with
  | zero => exact h'
  | succ n ih =>
    simp only [List.replicate_succ, List.flatten_cons, List.append_assoc]
    exact h.append id ih

theorem filterMap_eq {β : Type} {g : Symbol → Option β} (hg : ∀ x, x.isBarLine = false → g x = none)
    (hbar : g plainBar = none) (h : Matched edit loose rests xs ys) :
    ys.filterMap g = xs.filterMap g := by
  induction h with
  | nil => rfl
  | both _ ih => rw [List.filterMap_cons, List.filterMap_cons, Symbol.apply_edited hg, ih]
  | left hx _ ih => rw [List.filterMap_cons_none (Symbol.eq_none_of_isIdle hg hbar hx), ih]
  | right hy _ ih => rw [List.filterMap_cons_none (Symbol.eq_none_of_isIdle hg hbar hy), ih]

theorem isCoda_of_isIdle {symbol : Symbol} (h : symbol.isIdle rests) : symbol.isCoda = false := by
  obtain hi | ⟨-, rfl⟩ := Symbol.inert_or_plainBar h
  · cases symbol with
    | clef | comment | space => rfl
    | note | call | phrase | theme | tie | barLine | marking => cases hi
  · rfl

theorem countP_isCoda (h : Matched edit loose rests xs ys) :
    ys.countP Symbol.isCoda = xs.countP Symbol.isCoda := by
  induction h with
  | nil => rfl
  | both _ ih => rw [List.countP_cons, List.countP_cons, ih, Symbol.isCoda_edited]
  | left hx _ ih => rw [List.countP_cons_of_neg (by simp [isCoda_of_isIdle hx]), ih]
  | right hy _ ih => rw [List.countP_cons_of_neg (by simp [isCoda_of_isIdle hy]), ih]

theorem takeWhile_isCoda (h : Matched edit loose rests xs ys) :
    Matched edit loose rests (xs.takeWhile (!·.isCoda)) (ys.takeWhile (!·.isCoda)) := by
  induction h with
  | nil => exact .nil
  | @both rests x xs ys _ ih =>
    rw [List.takeWhile_cons, List.takeWhile_cons, Symbol.isCoda_edited]
    split
    · exact .both ih
    · exact .nil
  | left hx _ ih =>
    rw [List.takeWhile_cons, isCoda_of_isIdle hx]
    exact .left hx ih
  | right hy _ ih =>
    rw [List.takeWhile_cons, isCoda_of_isIdle hy]
    exact .right hy ih

theorem written?_of_isIdle {symbol : Symbol} (h : symbol.isIdle rests) : written? symbol = none :=
  Symbol.eq_none_of_isIdle written?_of_not_isBarLine rfl h

theorem pass (number : Nat) {playing : Bool} (free : Option (List Nat))
    (h : Matched edit loose rests xs ys) (hr : playing → rests → rests') :
    Matched edit loose rests'
      (Repetition.pass number playing (xs.zip (fill free (xs.map written?))))
      (Repetition.pass number playing (ys.zip (fill free (ys.map written?)))) := by
  induction h generalizing playing free rests' with
  | nil => exact .nil
  | @both rests x xs ys _ ih =>
    rw [List.map_cons, List.map_cons, Symbol.apply_edited written?_of_not_isBarLine]
    obtain ⟨order, free', hfill⟩ := exists_fill_cons free (written? x)
    rw [hfill, hfill, List.zip_cons_cons, List.zip_cons_cons]
    cases order with
    | none =>
      rw [Repetition.pass, Repetition.pass]
      cases playing with
      | true => exact .both (ih free' fun _ ↦ id)
      | false => exact ih free' nofun
    | some order =>
      rw [Repetition.pass, Repetition.pass]
      split
      · exact .both (ih free' fun _ ↦ id)
      · exact ih free' nofun
  | left hx _ ih =>
    rw [List.map_cons, written?_of_isIdle hx, fill_none, List.zip_cons_cons, Repetition.pass]
    cases playing with
    | true => exact .left (Symbol.isIdle_mono (hr rfl) hx) (ih free hr)
    | false => exact ih free hr
  | right hy _ ih =>
    rw [List.map_cons, written?_of_isIdle hy, fill_none, List.zip_cons_cons, Repetition.pass]
    cases playing with
    | true => exact .right (Symbol.isIdle_mono (hr rfl) hy) (ih free hr)
    | false => exact ih free hr

theorem forall_mem_getLast?_cons {p : Symbol → Prop} {x : Symbol} :
    (∀ y ∈ (x :: xs).getLast?, p y) ↔ (xs = [] → p x) ∧ ∀ y ∈ xs.getLast?, p y := by
  cases xs <;> simp

theorem concat_left (h : Matched edit loose rests xs ys) (hnil : ys = [] → rests)
    (hlast : ∀ y ∈ ys.getLast?, y.isBarLine) : Matched edit loose rests (xs ++ [plainBar]) ys := by
  induction h with
  | nil => exact .left (by rw [hnil rfl]; rfl) .nil
  | both _ ih =>
    obtain ⟨hx, hlast⟩ := forall_mem_getLast?_cons.mp hlast
    rw [Symbol.isBarLine_edited] at hx
    refine .both (ih (fun hys ↦ ?_) hlast)
    rw [hx hys]
    exact Bool.or_true loose
  | left hx _ ih => exact .left hx (ih hnil hlast)
  | right hy _ ih =>
    obtain ⟨hbar, hlast⟩ := forall_mem_getLast?_cons.mp hlast
    exact .right hy (ih (fun hys ↦ Symbol.rests_of_isIdle hy (hbar hys)) hlast)

theorem concat_right (h : Matched edit loose rests xs ys) (hnil : xs = [] → rests)
    (hlast : ∀ x ∈ xs.getLast?, x.isBarLine) : Matched edit loose rests xs (ys ++ [plainBar]) := by
  induction h with
  | nil => exact .right (by rw [hnil rfl]; rfl) .nil
  | both _ ih =>
    obtain ⟨hx, hlast⟩ := forall_mem_getLast?_cons.mp hlast
    refine .both (ih (fun hxs ↦ ?_) hlast)
    rw [hx hxs]
    exact Bool.or_true loose
  | left hx _ ih =>
    obtain ⟨hbar, hlast⟩ := forall_mem_getLast?_cons.mp hlast
    exact .left hx (ih (fun hxs ↦ Symbol.rests_of_isIdle hx (hbar hxs)) hlast)
  | right hy _ ih => exact .right hy (ih hnil hlast)

theorem body (h : Matched edit loose loose xs ys) :
    Matched edit loose true (Repetition.body xs (-1)) (Repetition.body ys (-1)) := by
  have htrue : Matched edit loose true xs ys := h.mono fun _ ↦ rfl
  have hbar {content : List Symbol} (hc : ¬(content.getLast?.any (!·.isBarLine)) = true) :
      ∀ x ∈ content.getLast?, x.isBarLine := by
    intro x hx
    have hlast : content.getLast? = some x := hx
    rw [hlast] at hc
    simpa using hc
  simp only [Repetition.body, true_and]
  split <;> split
  next => exact htrue.append_bar .nil
  next hy => exact htrue.concat_left (fun _ ↦ rfl) (hbar hy)
  next hx _ => exact htrue.concat_right (fun _ ↦ rfl) (hbar hx)
  next => exact htrue

theorem flatMap_bar {p q : Nat → List Symbol} (h : ∀ k, Matched edit loose true (p k) (q k))
    (ks : List Nat) :
    Matched edit loose true (ks.flatMap fun k ↦ p k ++ [plainBar]) (ks.flatMap fun k ↦
      q k ++ [plainBar]) := by
  induction ks with
  | nil => exact .nil
  | cons k ks ih =>
    simp only [List.flatMap_cons, List.append_assoc, List.singleton_append]
    exact (h k).append_bar ih

theorem unfold (h : Matched edit loose loose xs ys) (times : Int) :
    Matched edit loose true (Repetition.unfold xs times).1 (Repetition.unfold ys times).1 := by
  unfold Repetition.unfold
  split
  · have horders : unclaimed (ys.map written?) times.toNat =
        unclaimed (xs.map written?) times.toNat := by
      rw [unclaimed_eq, unclaimed_eq, h.filterMap_eq written?_of_not_isBarLine rfl]
    refine flatMap_bar (fun k ↦ ?_) _
    simp only [orders, horders]
    exact h.pass k (some (unclaimed (xs.map written?) times.toNat)) fun _ _ ↦ rfl
  · rw [withCoda_fst, withCoda_fst]
    split
    next => exact .nil
    next n hn =>
      by_cases hm : times = -1
      · subst hm
        obtain rfl : 0 = n := Nat.succ.inj hn
        exact h.body.takeWhile_isCoda
      · have hbody (content : List Symbol) : Repetition.body content times = content :=
          if_neg fun hc ↦ hm hc.1
        rw [hbody, hbody]
        exact (h.flatten_replicate n h.takeWhile_isCoda).mono fun _ ↦ rfl

theorem unnumbered_unfold (h : Matched edit loose loose xs ys) (times : Int) :
    (Repetition.unfold ys times).2.map Remark.unnumbered =
      (Repetition.unfold xs times).2.map Remark.unnumbered := by
  rw [Repetition.unnumbered_unfold, Repetition.unnumbered_unfold, h.countP_isCoda,
    h.filterMap_eq unexpectedOrder?_of_not_isBarLine rfl]

end Matched

/-- An edit that takes away nothing but idle symbols. -/
def Spares (edit : List Symbol → List Symbol) (loose : Bool) : Prop :=
  ∀ symbols, Matched edit loose loose symbols (Symbol.editAll edit symbols)

namespace Symbol

variable (edit : List Symbol → List Symbol)

theorem matched_unbarred (symbols : List Symbol) :
    Matched edit true true symbols (unbarred (contentEdited edit symbols)) := by
  induction symbols with
  | nil => exact .nil
  | cons x rest ih =>
    rw [contentEdited, unbarred, List.filter_cons, isPlainBar_edited]
    cases h : x.isPlainBar with
    | true =>
      have hx : x.isIdle true := by rw [isIdle, h, Bool.true_and, Bool.or_true]
      exact .left hx ih
    | false => exact .both ih

theorem matched_singleBars (after : Bool) (symbols : List Symbol) :
    Matched edit false after symbols
      (singleBars after ((contentEdited edit symbols).filter (!·.isInert))) := by
  induction symbols generalizing after with
  | nil => exact .nil
  | cons x rest ih =>
    rw [contentEdited, List.filter_cons, isInert_edited]
    cases hi : x.isInert with
    | true =>
      have hx : x.isIdle after := by rw [isIdle, hi, Bool.true_or]
      exact .left hx (ih after)
    | false =>
      simp only [Bool.not_false, if_true, singleBars, isPlainBar_edited, isBarLine_edited]
      split
      next h =>
        -- A bar line that is dropped has one before it, so no beats are open after it either.
        obtain ⟨rfl, hbar⟩ : after = true ∧ x.isPlainBar = true := by simpa using h
        have hx : x.isIdle true := by rw [isIdle, hbar, Bool.true_and, Bool.or_true]
        exact .left hx (ih true)
      next => exact .both (ih x.isBarLine)

theorem spares_unbarred : Spares unbarred true := matched_unbarred unbarred

theorem spares_tidied : Spares tidied false := matched_singleBars tidied false

end Symbol

end Rendition
