import Mathlib.Data.List.Basic
import Mathlib.Data.Nat.Find
import Rendition.Score.Repetition

namespace Rendition

namespace Repetition

def indicesOf (property : Symbol → Bool) (content : List Symbol) : List Nat :=
  (List.range content.length).filter fun i ↦ content[i]?.any property

def orderAt? (content : List Symbol) (i : Nat) : Option (List UInt32) :=
  match content[i]? with
  | some (.barLine bar) => bar.order
  | _ => none

/-- The passes written on the volta at an index: a bar line is a volta if its order
does not begin with 0. -/
def voltaAt? (content : List Symbol) (i : Nat) : Option (List Nat) :=
  ((orderAt? content i).filter fun order ↦ order.head? ≠ some 0).map (·.map UInt32.toNat)

section Plays

variable (content : List Symbol) (passes p i : Nat)

def IsWritten : Prop := ∃ order ∈ voltaAt? content i, p ∈ order

/-- The default volta is the first that has no passes written on it. -/
def IsDefault : Prop := voltaAt? content i = some [] ∧ ∀ j < i, voltaAt? content j ≠ some []

/-- A volta takes the passes written on it, and the default volta those that are written on none. -/
def Takes : Prop :=
  IsWritten content p i ∨ IsDefault content i ∧ 1 ≤ p ∧ p ≤ passes ∧ ∀ j < content.length,
    ¬IsWritten content p j

/-- A symbol plays in the passes that the last volta up to it takes, itself included, and in
all if there is none. -/
def Plays : Prop :=
  ∀ j ≤ i, (voltaAt? content j).isSome → (∀ k ≤ i, j < k → voltaAt? content k = none) →
    Takes content passes p j

instance : Decidable (IsWritten content p i) :=
  inferInstanceAs (Decidable (∃ order ∈ voltaAt? content i, p ∈ order))

instance : Decidable (IsDefault content i) := inferInstanceAs (Decidable (_ ∧ _))

instance : Decidable (Takes content passes p i) := inferInstanceAs (Decidable (_ ∨ _))

instance : Decidable (Plays content passes p i) := inferInstanceAs (Decidable (∀ j ≤ i, _))

end Plays

/-- What is repeated: the content as written, but content that is to play once ends in a bar
line if it has an end. -/
inductive Closed : Int → List Symbol → List Symbol → Prop
  | again {times : Int} {content : List Symbol} (h : times ≠ -1) : Closed times content content
  | nil : Closed (-1) [] []
  | barred {content : List Symbol} {bar : BarLine} :
      Closed (-1) (content ++ [.barLine bar]) (content ++ [.barLine bar])
  | bare {content : List Symbol} {last : Symbol} (h : last.isBarLine = false) :
      Closed (-1) (content ++ [last]) (content ++ [last, .barLine {}])

theorem map_snd_zipIdx (content : List Symbol) :
    content.zipIdx.map Prod.snd = List.range content.length := by
  rw [List.zipIdx_map_snd, List.range_eq_range']

theorem codas_eq (content : List Symbol) : codas content = indicesOf Symbol.isCoda content := by
  rw [codas, indicesOf, ← map_snd_zipIdx, List.filter_map]
  refine congrArg _ (List.filter_congr fun s hs ↦ ?_)
  rw [Function.comp_apply, List.mem_zipIdx_iff_getElem?.mp hs]
  rfl

section Voltas

variable {content : List Symbol} {passes p i j : Nat}

theorem voltaAt?_eq (content : List Symbol) (i : Nat) :
    voltaAt? content i = content[i]?.bind written? := by
  unfold voltaAt? orderAt?
  cases content[i]? with
  | none => rfl
  | some symbol =>
    cases symbol with
    | barLine bar =>
      obtain ⟨skip, overlay, order, terminal⟩ := bar
      cases order with
      | none => rfl
      | some order =>
        change Option.map _ (if _ then _ else _) = if _ then _ else _
        split <;> simp_all [BarLine.isVolta]
    | note | call | phrase | theme | tie | clef | comment | space | marking => rfl

theorem lt_of_voltaAt? {order : List Nat} (h : voltaAt? content i = some order) :
    i < content.length := by
  rw [voltaAt?_eq] at h
  obtain ⟨symbol, hsymbol, -⟩ := Option.bind_eq_some_iff.mp h
  exact (List.getElem?_eq_some_iff.mp hsymbol).1

theorem plays_iff_takes (h : (voltaAt? content i).isSome) : Plays content passes p i ↔
    Takes content passes p i := by
  refine ⟨fun hp ↦ hp i (Nat.le_refl i) h fun k hk hlt ↦ absurd hk (Nat.not_le.mpr hlt),
    fun ht j hj _ hnone ↦ ?_⟩
  obtain rfl | hlt := Nat.eq_or_lt_of_le hj
  · exact ht
  · rw [hnone i (Nat.le_refl i) hlt] at h
    cases h

theorem plays_zero (h : voltaAt? content 0 = none) : Plays content passes p 0 := by
  intro j hj hsome
  obtain rfl := Nat.le_zero.mp hj
  rw [h] at hsome
  cases hsome

theorem plays_succ (h : voltaAt? content (i + 1) = none) :
    Plays content passes p (i + 1) ↔ Plays content passes p i := by
  refine ⟨fun hp j hj hsome hnone ↦ ?_, fun hp j hj hsome hnone ↦ ?_⟩
  · refine hp j (Nat.le_succ_of_le hj) hsome fun k hk hlt ↦ ?_
    obtain rfl | hk := Nat.eq_or_lt_of_le hk
    · exact h
    · exact hnone k (Nat.le_of_lt_succ hk) hlt
  · obtain rfl | hj := Nat.eq_or_lt_of_le hj
    · rw [h] at hsome
      cases hsome
    · exact hp j (Nat.le_of_lt_succ hj) hsome fun k hk hlt ↦ hnone k (Nat.le_succ_of_le hk) hlt

/-- Whether a symbol with this order plays in a pass, where `playing` tells whether the
one before it does. -/
def settle (p : Nat) (playing : Bool) : Option (List Nat) → Bool
  | none => playing
  | some order => order.contains p

theorem pass_cons (p : Nat) (playing : Bool) (symbol : Symbol) (order : Option (List Nat))
    (rest : List (Symbol × Option (List Nat))) : pass p playing ((symbol, order) :: rest) =
      if settle p playing order then symbol :: pass p true rest else pass p false rest := by
  cases order <;> rfl

theorem pass_eq {ordered : List (Symbol × Option (List Nat))} {playing : Bool} (plays : Nat → Bool)
    (hzero : ∀ entry, ordered[0]? = some entry → plays 0 = settle p playing entry.2)
    (hsucc : ∀ i entry, ordered[i + 1]? = some entry → plays (i + 1) = settle p (plays i) entry.2) :
    pass p playing ordered =
      ((List.range ordered.length).filter plays).filterMap fun i ↦ ordered[i]?.map Prod.fst := by
  induction ordered generalizing playing plays with
  | nil => rfl
  | cons entry rest ih =>
    obtain ⟨symbol, order⟩ := entry
    have hfirst : plays 0 = settle p playing order := hzero _ rfl
    have hrest : pass p (plays 0) rest =
        ((List.range rest.length).filter (plays ∘ Nat.succ)).filterMap fun i ↦
        rest[i]?.map Prod.fst :=
      ih (plays ∘ Nat.succ) (hsucc 0) fun i ↦ hsucc (i + 1)
    rw [List.length_cons, List.range_succ_eq_map, List.filter_cons, List.filter_map,
      pass_cons, ← hfirst]
    cases hplays : plays 0 with
    | true =>
      rw [hplays] at hrest
      rw [if_pos rfl, if_pos rfl, hrest, List.filterMap_cons, List.filterMap_map]
      rfl
    | false =>
      rw [hplays] at hrest
      rw [if_neg Bool.false_ne_true, if_neg Bool.false_ne_true, hrest, List.filterMap_map]
      rfl

theorem getElem?_fillDefault (free : List Nat) (orders : List (Option (List Nat))) (i : Nat) :
    (fillDefault free orders)[i]? =
      if orders[i]? = some (some []) ∧ ∀ j < i, orders[j]? ≠ some (some []) then some (some free)
      else orders[i]? := by
  induction orders generalizing i with
  | nil => simp [fillDefault]
  | cons order rest ih =>
    by_cases hd : order = some []
    · subst hd
      cases i with
      | zero => simp [fillDefault]
      | succ i =>
        rw [if_neg fun h ↦ h.2 0 (Nat.succ_pos i) rfl]
        rfl
    · rw [fillDefault]
      · cases i with
        | zero => simp [hd]
        | succ i =>
          have hearlier : (∀ j < i + 1, (order :: rest)[j]? ≠ some (some [])) ↔ ∀ j < i, rest[j]? ≠
              some (some []) := by
            rw [Nat.forall_lt_succ_left']
            exact and_iff_right fun h ↦ hd (Option.some.inj h)
          rw [List.getElem?_cons_succ, List.getElem?_cons_succ, ih]
          exact if_congr (and_congr_right' hearlier.symm) rfl rfl
      · exact hd

theorem length_fillDefault (free : List Nat) (orders : List (Option (List Nat))) :
    (fillDefault free orders).length = orders.length := by
  induction orders with
  | nil => rfl
  | cons order rest ih =>
    unfold fillDefault
    split <;> simp_all

theorem getElem?_map_written? {order : List Nat} :
    (content.map written?)[i]? = some (some order) ↔ voltaAt? content i = some order := by
  rw [List.getElem?_map, voltaAt?_eq]
  cases content[i]? <;> simp

theorem getElem?_orders (content : List Symbol) (passes i : Nat) : (orders content passes)[i]? =
    if IsDefault content i then some (some (unclaimed (content.map written?) passes))
    else (content.map written?)[i]? := by
  rw [orders, getElem?_fillDefault]
  refine if_congr ?_ rfl rfl
  simp only [ne_eq, getElem?_map_written?, IsDefault]

theorem mem_unclaimed : p ∈ unclaimed (content.map written?) passes ↔
    1 ≤ p ∧ p ≤ passes ∧ ∀ j < content.length, ¬IsWritten content p j := by
  have hany : (content.map written?).any (fun order ↦ order.any (·.contains p)) = false ↔
      ∀ j < content.length, ¬IsWritten content p j := by
    rw [List.any_eq_false]
    constructor
    · rintro h j hj ⟨order, hvolta, hp⟩
      refine h (some order) (List.mem_of_getElem? (getElem?_map_written?.mpr hvolta)) ?_
      exact List.contains_iff_mem.mpr hp
    · rintro h (- | order) hmem hp
      · cases hp
      · obtain ⟨j, hj⟩ := List.mem_iff_getElem?.mp hmem
        have hvolta := getElem?_map_written?.mp hj
        exact h j (lt_of_voltaAt? hvolta) ⟨order, hvolta, List.contains_iff_mem.mp hp⟩
  rw [unclaimed, List.mem_filter, List.mem_range'_1, Nat.lt_one_add_iff, Bool.not_eq_true',
    hany, and_assoc]

theorem IsDefault.not_isWritten (h : IsDefault content i) : ¬IsWritten content p i := by
  rintro ⟨order, hvolta, hp⟩
  obtain rfl := Option.some.inj (h.1.symm.trans hvolta)
  cases hp

theorem IsDefault.takes_iff (h : IsDefault content i) :
    Takes content passes p i ↔ p ∈ unclaimed (content.map written?) passes := by
  rw [mem_unclaimed]
  exact ⟨fun ht ↦ (ht.resolve_left h.not_isWritten).2, fun hp ↦ .inr ⟨h, hp⟩⟩

theorem takes_iff_mem {order : List Nat} (hd : ¬IsDefault content i)
    (h : voltaAt? content i = some order) :
    Takes content passes p i ↔ p ∈ order := by
  refine ⟨fun ht ↦ ?_, fun hp ↦ .inl ⟨order, h, hp⟩⟩
  obtain ⟨order', hvolta, hp⟩ | ⟨hdefault, -⟩ := ht
  · obtain rfl := Option.some.inj (h.symm.trans hvolta)
    exact hp
  · exact absurd hdefault hd

theorem settle_orders {order : Option (List Nat)}
    (h : (orders content passes)[i]? = some order) (p : Nat) (playing : Bool) :
    settle p playing order =
      if (voltaAt? content i).isSome then decide (Takes content passes p i) else playing := by
  rw [getElem?_orders] at h
  split at h
  next hd =>
    obtain rfl := Option.some.inj h
    rw [hd.1, Option.isSome_some, if_pos rfl, settle, List.contains_eq_mem, decide_eq_decide]
    exact hd.takes_iff.symm
  next hd =>
    cases order with
    | none =>
      have hnone : voltaAt? content i = none := by
        rw [List.getElem?_map] at h
        obtain ⟨symbol, hsymbol, hw⟩ := Option.map_eq_some_iff.mp h
        rw [voltaAt?_eq, hsymbol]
        exact hw
      rw [hnone]
      rfl
    | some order =>
      have hvolta := getElem?_map_written?.mp h
      rw [hvolta, Option.isSome_some, if_pos rfl, settle, List.contains_eq_mem, decide_eq_decide]
      exact (takes_iff_mem hd hvolta).symm

theorem pass_orders (content : List Symbol) (passes p : Nat) :
    pass p true (content.zip (orders content passes)) =
    ((List.range content.length).filter (Plays content passes p ·)).filterMap (content[·]?) := by
  have horders : (orders content passes).length = content.length := by
    rw [orders, length_fillDefault, List.length_map]
  have hlength : (content.zip (orders content passes)).length = content.length := by
    rw [List.length_zip, horders, Nat.min_self]
  have hfst : (content.zip (orders content passes)).map Prod.fst = content :=
    List.map_fst_zip (Nat.le_of_eq horders.symm)
  have hsettle (i : Nat) {entry : Symbol × Option (List Nat)}
      (h : (content.zip (orders content passes))[i]? = some entry) (playing : Bool) :
      settle p playing entry.2 =
        if (voltaAt? content i).isSome then decide (Takes content passes p i) else playing :=
    settle_orders (List.getElem?_zip_eq_some.mp h).2 p playing
  rw [pass_eq fun i ↦ decide (Plays content passes p i), hlength]
  · simp only [← List.getElem?_map, hfst]
  · intro entry h
    rw [hsettle 0 h]
    split
    next hv => exact decide_eq_decide.mpr (plays_iff_takes hv)
    next hv => exact decide_eq_true (plays_zero (Option.not_isSome_iff_eq_none.mp hv))
  · intro i entry h
    rw [hsettle (i + 1) h]
    split
    next hv => exact decide_eq_decide.mpr (plays_iff_takes hv)
    next hv => exact decide_eq_decide.mpr (plays_succ (Option.not_isSome_iff_eq_none.mp hv))

theorem exists_isDefault (h : voltaAt? content i = some []) : ∃ j, IsDefault content j :=
  have hex : ∃ i, voltaAt? content i = some [] := ⟨i, h⟩
  ⟨Nat.find hex, Nat.find_spec hex, fun _ hlt ↦ Nat.find_min hex hlt⟩

theorem IsDefault.eq (hi : IsDefault content i) (hj : IsDefault content j) : i = j := by
  obtain hlt | heq | hlt := Nat.lt_trichotomy i j
  · exact absurd hi.1 (hj.2 i hlt)
  · exact heq
  · exact absurd hj.1 (hi.2 j hlt)

theorem exists_takes (h : voltaAt? content i = some []) (hp : 1 ≤ p) (hle : p ≤ passes) :
    ∃ j, Takes content passes p j := by
  by_cases hw : ∃ j, IsWritten content p j
  · obtain ⟨j, hj⟩ := hw
    exact ⟨j, .inl hj⟩
  · obtain ⟨j, hj⟩ := exists_isDefault h
    exact ⟨j, .inr ⟨hj, hp, hle, fun k _ hk ↦ hw ⟨k, hk⟩⟩⟩

theorem takes_unique (h : voltaAt? content i = some []) (hi : Takes content passes p i)
    (hj : Takes content passes p j) : i = j := by
  obtain ⟨order, hvolta, hp⟩ | ⟨hdefault, -, -, hnone⟩ := hi
  · obtain rfl := Option.some.inj (h.symm.trans hvolta)
    cases hp
  · obtain ⟨order, hvolta, hp⟩ | ⟨hdefault', -⟩ := hj
    · exact absurd ⟨order, hvolta, hp⟩ (hnone j (lt_of_voltaAt? hvolta))
    · exact hdefault.eq hdefault'

/-- Content with a number of passes is played in each of them without the symbols that do not play
in it, and a bar line after each. If there is a default volta, then every pass is taken, and no
other volta shares a pass with it. -/
theorem unfold_plays_passes (content : List Symbol) (h : 0 < passes) :
    unfold content passes =
        ((List.range' 1 passes).flatMap fun p ↦
            ((List.range content.length).filter (Plays content passes p ·)).filterMap
              (content[·]?) ++ [.barLine {}],
          (indicesOf Symbol.isCoda content).map fun i ↦ ⟨.unexpectedCoda, [⟨0, i⟩]⟩) ∧
      (∀ i p, voltaAt? content i = some [] → 1 ≤ p → p ≤ passes → ∃ j, Takes content passes p j) ∧
      ∀ i j p, voltaAt? content i = some [] → Takes content passes p i →
      Takes content passes p j → i = j := by
  refine ⟨?_, fun i p ↦ exists_takes, fun i j p ↦ takes_unique⟩
  rw [unfold, if_pos (Int.natCast_pos.mpr h), Int.toNat_natCast, withVoltas, codas_eq]
  simp only [pass_orders]
  rfl

end Voltas

namespace Overlapping

def content : List Symbol :=
  [.marking "a", .barLine { order := some [1, 3] }, .marking "b",
    .barLine { order := some [0, 2], skip := true }, .marking "c", .barLine { order := some [] },
    .marking "d", .barLine { order := some [3, 9] }, .marking "e", .barLine { order := some [] },
    .marking "f"]

end Overlapping

theorem unfold_plays_passes_overlapping :
    unfold Overlapping.content (4 : Nat) =
        ([.marking "a", .barLine { order := some [1, 3] }, .marking "b",
            .barLine { order := some [0, 2], skip := true }, .marking "c", .barLine {},
          .marking "a", .barLine { order := some [] }, .marking "d", .barLine {},
          .marking "a", .barLine { order := some [1, 3] }, .marking "b",
            .barLine { order := some [0, 2], skip := true }, .marking "c",
            .barLine { order := some [3, 9] }, .marking "e", .barLine {},
          .marking "a", .barLine { order := some [] }, .marking "d", .barLine {}],
          [⟨.unexpectedCoda, [⟨0, 3⟩]⟩]) ∧
      ∃ j, Takes Overlapping.content 4 2 j := by
  obtain ⟨hunfold, htaken, -⟩ := unfold_plays_passes Overlapping.content (show 0 < 4 by decide)
  exact ⟨hunfold, htaken 5 2 (by decide) (by decide) (by decide)⟩

section Codas

theorem closed_iff {content closed : List Symbol} {times : Int} :
    Closed times content closed ↔ closed = body content times := by
  constructor
  · intro h
    cases h with
    | again h => rw [body, if_neg fun hc ↦ h hc.1]
    | nil => rfl
    | barred => simp [body, Symbol.isBarLine]
    | bare h => simp [body, h, plainBar]
  · rintro rfl
    by_cases ht : times = -1
    · subst ht
      obtain rfl | ⟨front, last, rfl⟩ := List.eq_nil_or_concat' content
      · exact .nil
      · cases hb : last.isBarLine with
        | true =>
          have hbody : body (front ++ [last]) (-1) = front ++ [last] := by simp [body, hb]
          rw [hbody]
          cases last with
          | barLine bar => exact .barred
          | note | call | phrase | theme | tie | clef | comment | space | marking => cases hb
        | false =>
          have hbody : body (front ++ [last]) (-1) = front ++ [last, .barLine {}] := by
            simp [body, hb, plainBar]
          rw [hbody]
          exact .bare hb
    · rw [body, if_neg fun h ↦ ht h.1]
      exact .again ht

theorem head?_codas (content : List Symbol) :
    (codas content).head? = content.findIdx? Symbol.isCoda := by
  rw [codas_eq, indicesOf, List.head?_filter]
  ext i
  simp only [List.find?_range_eq_some, List.findIdx?_eq_some_iff_getElem, List.mem_range,
    Bool.not_eq_true', Bool.not_eq_true]
  constructor
  · rintro ⟨hi, hlt, hbefore⟩
    rw [List.getElem?_eq_getElem hlt] at hi
    refine ⟨hlt, hi, fun j hj ↦ ?_⟩
    have hnone := hbefore j hj
    rwa [List.getElem?_eq_getElem (Nat.lt_trans hj hlt)] at hnone
  · rintro ⟨hlt, hi, hbefore⟩
    refine ⟨?_, hlt, fun j hj ↦ ?_⟩
    · rwa [List.getElem?_eq_getElem hlt]
    · rw [List.getElem?_eq_getElem (Nat.lt_trans hj hlt)]
      exact hbefore j hj

theorem codas_body (content : List Symbol) (times : Int) :
    codas (body content times) = codas content := by
  unfold body
  split
  · simp [codas, List.zipIdx_append, plainBar, Symbol.isCoda]
  · rfl

theorem copies_eq (n : Nat) (content : List Symbol) :
    copies n content = (List.replicate n content).flatten := by
  unfold copies
  split
  next h =>
    rw [List.isEmpty_iff.mp h]
    simp
  next => rfl

theorem filterMap_zipIdx {β : Type} (f : Symbol → Nat → Option β) (content : List Symbol) :
    (content.zipIdx.filterMap fun s ↦ f s.1 s.2) =
      (List.range content.length).filterMap fun i ↦ content[i]?.bind (f · i) := by
  rw [← map_snd_zipIdx, List.filterMap_map]
  refine List.filterMap_congr fun s hs ↦ ?_
  rw [Function.comp_apply, List.mem_zipIdx_iff_getElem?.mp hs]
  rfl

theorem bind_unexpectedOrder? (content : List Symbol) (i : Nat) :
    content[i]?.bind unexpectedOrder? = (orderAt? content i).filter (· ≠ [0]) := by
  unfold orderAt?
  cases content[i]? with
  | none => rfl
  | some symbol =>
    cases symbol with
    | barLine bar =>
      obtain ⟨skip, overlay, order, terminal⟩ := bar
      cases order with
      | none => rfl
      | some order =>
        change (if _ then _ else _) = if _ then _ else _
        split <;> simp_all
    | note | call | phrase | theme | tie | clef | comment | space | marking => rfl

theorem withCoda_snd (content : List Symbol) (times : Int) : (withCoda content times).2 =
    ((List.range content.length).filterMap fun i ↦
      ((orderAt? content i).filter (· ≠ [0])).map fun order ↦
        ⟨.unexpectedVolta order, [⟨0, i⟩]⟩) ++
      (indicesOf Symbol.isCoda content).tail.map fun i ↦ ⟨.multiCoda, [⟨0, i⟩]⟩ := by
  unfold withCoda
  dsimp only
  rw [codas_body, codas_eq, List.drop_one,
    filterMap_zipIdx fun symbol i ↦ (unexpectedOrder? symbol).map fun order ↦
    amiss (.unexpectedVolta order) i]
  refine congrArg (· ++ _) (List.filterMap_congr fun i _ ↦ ?_)
  rw [← bind_unexpectedOrder?, Option.map_bind]
  rfl

theorem index_lt_of_mem_withCoda {content : List Symbol} {times : Int} {r : Remark}
    (h : r ∈ (withCoda content times).2) : ∃ i < content.length, r.path = [⟨0, i⟩] := by
  rw [withCoda_snd] at h
  obtain h | h := List.mem_append.mp h
  · obtain ⟨i, hi, h⟩ := List.mem_filterMap.mp h
    obtain ⟨order, -, rfl⟩ := Option.map_eq_some_iff.mp h
    exact ⟨i, List.mem_range.mp hi, rfl⟩
  · obtain ⟨i, hi, rfl⟩ := List.mem_map.mp h
    exact ⟨i, List.mem_range.mp (List.mem_filter.mp (List.mem_of_mem_tail hi)).1, rfl⟩

/-- Content that is repeated is played as often as asked for, the last time up to its first coda. -/
theorem unfold_stops_at_coda (content : List Symbol) {times : Int} (h : times ≤ 0) :
    ∃ body, Closed times content body ∧
      (∀ cut, body.findIdx? Symbol.isCoda = some cut → times ≠ 0 →
        (unfold content times).1 = (List.replicate (times.natAbs - 1) body).flatten ++
          body.take cut) ∧
      (body.findIdx? Symbol.isCoda = none ∨ times = 0 →
        (unfold content times).1 = (List.replicate times.natAbs body).flatten) ∧
      ((unfold content times).2 =
        ((List.range content.length).filterMap fun i ↦
          ((orderAt? content i).filter (· ≠ [0])).map fun order ↦
            ⟨.unexpectedVolta order, [⟨0, i⟩]⟩) ++
          (indicesOf Symbol.isCoda content).tail.map fun i ↦ ⟨.multiCoda, [⟨0, i⟩]⟩) ∧
      ∀ r ∈ (unfold content times).2, ∃ i < content.length, r.path = [⟨0, i⟩] := by
  rw [unfold, if_neg (Int.not_lt.mpr h)]
  refine ⟨body content times, closed_iff.mpr rfl, fun cut hcut hne ↦ ?_, fun hnone ↦ ?_,
    withCoda_snd content times, fun r hr ↦ index_lt_of_mem_withCoda hr⟩
  · obtain ⟨n, hn⟩ := Nat.exists_eq_add_one_of_ne_zero (Int.natAbs_ne_zero.mpr hne)
    simp only [withCoda, head?_codas, hcut, hn, copies_eq, Nat.add_sub_cancel]
  · obtain hnone | rfl := hnone
    · simp only [withCoda, head?_codas, hnone, copies_eq]
    · simp [withCoda, copies]

end Codas

namespace Ending

def content : List Symbol :=
  [.barLine { order := some [0, 1] }, .barLine { order := some [0] }, .barLine { skip := true },
    .barLine { skip := true, order := some [] }, .space]

end Ending

theorem unfold_stops_at_coda_once :
    ∃ body, Closed (-1) Ending.content body ∧
      unfold Ending.content (-1) =
        ([.barLine { order := some [0, 1] }, .barLine { order := some [0] }],
          [⟨.unexpectedVolta [0, 1], [⟨0, 0⟩]⟩, ⟨.unexpectedVolta [], [⟨0, 3⟩]⟩,
            ⟨.multiCoda, [⟨0, 3⟩]⟩]) := by
  obtain ⟨body, hclosed, hcut, -, hremarks, -⟩ :=
    unfold_stops_at_coda Ending.content (show (-1 : Int) ≤ 0 by decide)
  obtain rfl := closed_iff.mp hclosed
  exact ⟨_, hclosed, Prod.ext (hcut 2 rfl (by decide)) hremarks⟩

end Repetition

end Rendition
