import Mathlib.Data.List.Induction
import Mathlib.Data.List.Pairwise
import Rendition.Sound.Playing

namespace Rendition

/-- An entry stands at a place of a list, and has come so many times before it. -/
def ComesAt (xs : List Int32) (before : Nat) (x : Int32) (i : Nat) : Prop :=
  xs[i]? = some x ∧ (xs.take i).count x = before

/-- Of two entries that have each come so many times, the one comes again before the other does. -/
def Precedes (xs : List Int32) (before : Nat) (x y : Int32) : Prop :=
  ∃ i j, ComesAt xs before x i ∧ ComesAt xs before y j ∧ i < j

/-- Between the first two times that an entry comes, another comes for its own first two times. -/
def Encloses (xs : List Int32) (x y : Int32) : Prop :=
  ∃ i j k l, ComesAt xs 0 x i ∧ ComesAt xs 0 y j ∧ ComesAt xs 1 y k ∧ ComesAt xs 1 x l ∧ i < j ∧
    j < k ∧ k < l

section Comings

variable {xs seen rest : List Int32} {x y : Int32} {i j n m : Nat}

theorem count_take_lt (h : xs[i]? = some x) (hij : i < j) :
    (xs.take i).count x < (xs.take j).count x := by
  have hnext : xs.take (i + 1) = xs.take i ++ [x] := by
    rw [List.take_add_one, h]
    rfl
  calc (xs.take i).count x < (xs.take (i + 1)).count x := by
        rw [hnext, List.count_append, List.count_singleton_self]
        exact Nat.lt_succ_self _
    _ ≤ (xs.take j).count x := (List.take_sublist_take_left hij).count_le x

namespace ComesAt

theorem lt_iff (h : ComesAt xs n x i) (h' : ComesAt xs m x j) : i < j ↔ n < m := by
  obtain ⟨hi, rfl⟩ := h
  obtain ⟨hj, rfl⟩ := h'
  constructor
  · exact count_take_lt hi
  · intro hlt
    by_contra hle
    obtain hlt' | rfl := Nat.lt_or_eq_of_le (Nat.not_lt.mp hle)
    · exact Nat.lt_asymm hlt (count_take_lt hj hlt')
    · exact Nat.lt_irrefl _ hlt

theorem eq (h : ComesAt xs n x i) (h' : ComesAt xs n x j) : i = j := by
  have hlt := (h.lt_iff h').not.mpr (Nat.lt_irrefl n)
  have hlt' := (h'.lt_iff h).not.mpr (Nat.lt_irrefl n)
  omega

end ComesAt

theorem comesAt_middle : ComesAt (seen.reverse ++ y :: rest) n x seen.length ↔ x = y ∧
    seen.count y = n := by
  have hlength : seen.length = seen.reverse.length := List.length_reverse.symm
  have hentry : (seen.reverse ++ y :: rest)[seen.length]? = some y := by
    rw [hlength, List.getElem?_append_right (Nat.le_refl _), Nat.sub_self]
    rfl
  have htake : (seen.reverse ++ y :: rest).take seen.length = seen.reverse := by
    rw [hlength, List.take_left']
    rfl
  rw [ComesAt, hentry, htake, List.count_reverse, Option.some.injEq]
  constructor
  · rintro ⟨rfl, h⟩
    exact ⟨rfl, h⟩
  · rintro ⟨rfl, h⟩
    exact ⟨rfl, h⟩

theorem ComesAt.append (h : ComesAt xs n x i) (more : List Int32) : ComesAt (xs ++ more) n x i := by
  obtain ⟨hi, hcount⟩ := h
  have hlt : i < xs.length := (List.getElem?_eq_some_iff.mp hi).1
  refine ⟨?_, ?_⟩
  · rw [List.getElem?_append_left hlt, hi]
  · rw [List.take_append_of_le_length (Nat.le_of_lt hlt), hcount]

theorem exists_comesAt_iff : (∃ i, ComesAt xs n x i) ↔ n < xs.count x := by
  constructor
  · rintro ⟨i, hi, rfl⟩
    have hlt : i < xs.length := (List.getElem?_eq_some_iff.mp hi).1
    calc (xs.take i).count x < (xs.take xs.length).count x := count_take_lt hi hlt
      _ = xs.count x := by rw [List.take_length]
  · intro h
    induction xs using List.reverseRecOn with
    | nil => cases h
    | append_singleton xs y ih =>
      by_cases hbefore : n < xs.count x
      · obtain ⟨i, hi⟩ := ih hbefore
        exact ⟨i, hi.append [y]⟩
      · -- The entry comes last of all.
        rw [List.count_append, List.count_singleton] at h
        split at h
        next hy =>
          obtain rfl : y = x := beq_iff_eq.mp hy
          refine ⟨xs.length, ?_, ?_⟩
          · simp
          · rw [List.take_left']
            · omega
            · rfl
        next => omega

theorem Precedes.ne (h : Precedes xs n x y) : x ≠ y := by
  rintro rfl
  obtain ⟨i, j, hi, hj, hlt⟩ := h
  exact Nat.lt_irrefl n ((hi.lt_iff hj).mp hlt)

theorem Precedes.lt_count (h : Precedes xs n x y) : n < xs.count x ∧ n < xs.count y := by
  obtain ⟨i, j, hi, hj, -⟩ := h
  exact ⟨exists_comesAt_iff.mp ⟨i, hi⟩, exists_comesAt_iff.mp ⟨j, hj⟩⟩

theorem Precedes.asymm (h : Precedes xs n x y) : ¬Precedes xs n y x := by
  rintro ⟨j', i', hj', hi', hlt'⟩
  obtain ⟨i, j, hi, hj, hlt⟩ := h
  obtain rfl := hi.eq hi'
  obtain rfl := hj.eq hj'
  exact Nat.lt_asymm hlt hlt'

theorem precedes_or (hx : n < xs.count x) (hy : n < xs.count y) (hne : x ≠ y) :
    Precedes xs n x y ∨ Precedes xs n y x := by
  obtain ⟨i, hi⟩ := exists_comesAt_iff.mpr hx
  obtain ⟨j, hj⟩ := exists_comesAt_iff.mpr hy
  obtain hlt | rfl | hlt := Nat.lt_trichotomy i j
  · exact .inl ⟨i, j, hi, hj, hlt⟩
  · exact absurd (Option.some.inj (hi.1.symm.trans hj.1)) hne
  · exact .inr ⟨j, i, hj, hi, hlt⟩

theorem encloses_iff : Encloses xs x y ↔ Precedes xs 0 x y ∧ Precedes xs 1 y x := by
  constructor
  · rintro ⟨i, j, k, l, hi, hj, hk, hl, hij, -, hkl⟩
    exact ⟨⟨i, j, hi, hj, hij⟩, ⟨k, l, hk, hl, hkl⟩⟩
  · rintro ⟨⟨i, j, hi, hj, hij⟩, ⟨k, l, hk, hl, hkl⟩⟩
    exact ⟨i, j, k, l, hi, hj, hk, hl, hij, (hj.lt_iff hk).mpr Nat.zero_lt_one, hkl⟩

theorem rel_or_of_pairwise {R : Int32 → Int32 → Prop} (h : xs.Pairwise R) (hx : x ∈ xs)
    (hy : y ∈ xs) (hne : x ≠ y) :
    R x y ∨ R y x := by
  have : Std.Symm fun a b ↦ R a b ∨ R b a := ⟨fun _ _ ↦ Or.symm⟩
  exact List.Pairwise.forall (R := fun a b ↦ R a b ∨ R b a) (h.imp .inl) hx hy hne

/-- The entries that come up for the second time, in the order in which they do, after those already
seen. -/
def secondComings : (seen : List Int32) → List Int32 → List Int32
  | _, [] => []
  | seen, x :: rest =>
    if seen.count x = 1 then x :: secondComings (x :: seen) rest else secondComings (x :: seen) rest

section Listed

variable {before listed : List Int32} (h : ∀ x, x ∈ listed ↔ 2 ≤ before.count x)
include h

theorem second_iff (y : Int32) : (y ∈ before ∧ y ∉ listed) ↔ before.count y = 1 := by
  rw [h, ← List.count_pos_iff]
  omega

theorem mem_listed_iff (x y : Int32) :
    x ∈ (if y ∈ before ∧ y ∉ listed then listed ++ [y] else listed) ↔
      2 ≤ (before ++ [y]).count x := by
  have hsecond := second_iff h y
  by_cases hx : x = y
  · subst hx
    rw [List.count_append, List.count_singleton_self]
    split
    next hy =>
      have hcount := hsecond.mp hy
      exact iff_of_true (List.mem_append_right _ (List.mem_singleton_self x)) (by omega)
    next hy =>
      have hcount := mt hsecond.mpr hy
      rw [h]
      omega
  · have hnone : [y].count x = 0 :=
      List.count_eq_zero.mpr fun hmem ↦ hx (List.mem_singleton.mp hmem)
    rw [List.count_append, hnone, Nat.add_zero, ← h]
    split
    next => rw [List.mem_append, List.mem_singleton, or_iff_left hx]
    next => rfl

/-- What has come before and is not listed yet comes for the second time. -/
theorem listRepeated_eq (rest : List Int32) :
    listRepeated before listed rest = listed ++ secondComings before.reverse rest := by
  induction rest generalizing before listed with
  | nil => exact (List.append_nil listed).symm
  | cons y rest ih =>
    rw [listRepeated, secondComings, List.count_reverse, ih (mem_listed_iff h · y),
      List.reverse_append]
    have hsecond := second_iff h y
    split
    next hy =>
      rw [if_pos (hsecond.mp hy), List.append_assoc]
      rfl
    next hy =>
      rw [if_neg (mt hsecond.mpr hy)]
      rfl

end Listed

theorem repeatedOffsets_eq (sounds : List Sound) :
    repeatedOffsets sounds = secondComings [] (sounds.filterMap Sound.pitch) :=
  listRepeated_eq (fun _ ↦ iff_of_false List.not_mem_nil (by simp)) _

theorem mem_secondComings :
    x ∈ secondComings seen rest ↔ ∃ i, seen.length ≤ i ∧ ComesAt (seen.reverse ++ rest) 1 x i := by
  induction rest generalizing seen with
  | nil =>
    refine iff_of_false List.not_mem_nil ?_
    rintro ⟨i, hle, hi, -⟩
    rw [List.append_nil, List.getElem?_eq_none (by rwa [List.length_reverse])] at hi
    cases hi
  | cons y rest ih =>
    have hlater : x ∈ secondComings (y :: seen) rest ↔
        ∃ i, seen.length + 1 ≤ i ∧ ComesAt (seen.reverse ++ y :: rest) 1 x i := by
      rw [ih, List.reverse_cons, ← List.append_cons, List.length_cons]
    have hsplit : x ∈ secondComings seen (y :: rest) ↔
        (x = y ∧ seen.count y = 1) ∨ x ∈ secondComings (y :: seen) rest := by
      rw [secondComings]
      split
      next hcount => rw [List.mem_cons, and_iff_left hcount]
      next hcount => exact (or_iff_right fun h ↦ hcount h.2).symm
    rw [hsplit, hlater, ← comesAt_middle]
    constructor
    · rintro (hfirst | ⟨i, hle, hi⟩)
      · exact ⟨seen.length, Nat.le_refl _, hfirst⟩
      · exact ⟨i, Nat.le_of_succ_le hle, hi⟩
    · rintro ⟨i, hle, hi⟩
      obtain rfl | hlt := Nat.eq_or_lt_of_le hle
      · exact .inl hi
      · exact .inr ⟨i, hlt, hi⟩

theorem pairwise_secondComings (seen rest : List Int32) :
    (secondComings seen rest).Pairwise (Precedes (seen.reverse ++ rest) 1) := by
  induction rest generalizing seen with
  | nil => exact .nil
  | cons y rest ih =>
    have hlater := ih (y :: seen)
    rw [List.reverse_cons, ← List.append_cons] at hlater
    rw [secondComings]
    split
    next hcount =>
      refine .cons (fun x hx ↦ ?_) hlater
      obtain ⟨i, hle, hi⟩ := mem_secondComings.mp hx
      rw [List.reverse_cons, ← List.append_cons] at hi
      exact ⟨seen.length, i, comesAt_middle.mpr ⟨rfl, hcount⟩, hi, hle⟩
    next => exact hlater

end Comings

theorem Note.mem_excesses_iff {sounds : List Sound} {listed : List Int32} :
    .reduplicate listed ∈ excesses sounds ↔ listed = repeatedOffsets sounds ∧
    repeatedOffsets sounds ≠ [] := by
  unfold excesses
  dsimp only
  rw [List.mem_append, or_iff_left]
  · split
    next hnone => exact iff_of_false List.not_mem_nil fun h ↦ h.2 (List.isEmpty_iff.mp hnone)
    next hsome =>
      rw [List.mem_singleton, Finding.reduplicate.injEq,
        and_iff_left (mt List.isEmpty_iff.mpr hsome)]
  · split <;> simp

/-- The repeated offsets of a note are those that come at least twice, each of them once, and a note
with such is remarked on. They stand as they come for the second time. This is how they come for the
first time, unless one comes twice between the first two times of another. -/
theorem repeatedOffsets_inOrder_iff (sounds : List Sound) :
    let offsets := sounds.filterMap Sound.pitch
    (repeatedOffsets sounds).Nodup ∧
    (∀ x, x ∈ repeatedOffsets sounds ↔ 2 ≤ offsets.count x) ∧
    (∀ listed, .reduplicate listed ∈ Note.excesses sounds ↔
      listed = repeatedOffsets sounds ∧ ∃ x, 2 ≤ offsets.count x) ∧
    (repeatedOffsets sounds).Pairwise (Precedes offsets 1) ∧
    ((repeatedOffsets sounds).Pairwise (Precedes offsets 0) ↔ ¬∃ x y, Encloses offsets x y) := by
  intro offsets
  have hmem (x : Int32) : x ∈ repeatedOffsets sounds ↔ 2 ≤ offsets.count x := by
    rw [repeatedOffsets_eq, mem_secondComings, ← Nat.lt_iff_add_one_le, ← exists_comesAt_iff]
    simp [offsets]
  have hsecond : (repeatedOffsets sounds).Pairwise (Precedes offsets 1) :=
    repeatedOffsets_eq sounds ▸ pairwise_secondComings [] offsets
  refine ⟨hsecond.imp Precedes.ne, hmem, fun listed ↦ ?_, hsecond, ?_⟩
  · rw [Note.mem_excesses_iff]
    refine and_congr_right fun _ ↦ ?_
    rw [Ne, List.eq_nil_iff_forall_not_mem, not_forall_not]
    exact exists_congr hmem
  · constructor
    · rintro hfirst ⟨x, y, h⟩
      obtain ⟨hxy, hyx⟩ := encloses_iff.mp h
      obtain ⟨hy, hx⟩ := hyx.lt_count
      obtain ⟨-, hxy'⟩ | ⟨hyx', -⟩ :=
        rel_or_of_pairwise (hfirst.and hsecond) ((hmem x).mpr hx) ((hmem y).mpr hy) hxy.ne
      · exact hyx.asymm hxy'
      · exact hxy.asymm hyx'
    · intro hnone
      refine hsecond.imp_of_mem fun {x y} hx hy hxy ↦ ?_
      have hxcount := (hmem x).mp hx
      have hycount := (hmem y).mp hy
      obtain h | h := precedes_or (Nat.zero_lt_of_lt hxcount) (Nat.zero_lt_of_lt hycount) hxy.ne
      · exact h
      · exact absurd ⟨y, x, encloses_iff.mpr ⟨h, hxy⟩⟩ hnone

namespace Nested

def sound (pitch : Int32) : Sound := ⟨some pitch, 1, false⟩

def chord : List Sound := [sound 0, sound 4, sound 4, sound 0]

end Nested

theorem repeatedOffsets_inOrder_iff_nested :
    repeatedOffsets Nested.chord = [4, 0] ∧
      ¬(repeatedOffsets Nested.chord).Pairwise
        (Precedes (Nested.chord.filterMap Sound.pitch) 0) := by
  obtain ⟨-, -, -, -, hfirst⟩ := repeatedOffsets_inOrder_iff Nested.chord
  refine ⟨by decide, fun h ↦ hfirst.mp h ⟨0, 4, 0, 1, 2, 3, ?_⟩⟩
  exact ⟨⟨rfl, rfl⟩, ⟨rfl, rfl⟩, ⟨rfl, rfl⟩, ⟨rfl, rfl⟩, by decide, by decide, by decide⟩

end Rendition
