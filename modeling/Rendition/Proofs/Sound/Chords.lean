import Mathlib.Data.List.Forall2
import Mathlib.Data.List.Sort
import Rendition.Sound.Chord

namespace Rendition

section MapM

variable {ε α β : Type} {f : α → Except ε β} {xs : List α}

theorem mapM_eq_ok_iff {ys : List β} :
    xs.mapM f = .ok ys ↔ List.Forall₂ (fun x y ↦ f x = .ok y) xs ys := by
  induction xs generalizing ys with
  | nil => cases ys <;> simp [pure, Except.pure]
  | cons x xs ih =>
    rw [List.mapM_cons]
    cases hx : f x with
    | error e => cases ys <;> simp [bind, Except.bind, hx]
    | ok y =>
      cases hxs : xs.mapM f with
      | error e => cases ys <;> simp [bind, Except.bind, ← ih, hxs, hx]
      | ok ys' => cases ys <;> simp [bind, Except.bind, pure, Except.pure, ← ih, hxs, hx]

/-- The error of the whole is that of the first element that has one. -/
theorem mapM_eq_error_iff {e : ε} : xs.mapM f = .error e ↔
    ∃ before x after, xs = before ++ x :: after ∧ (∀ a ∈ before, ∃ b, f a = .ok b) ∧
    f x = .error e := by
  induction xs with
  | nil =>
    rw [List.mapM_nil]
    refine ⟨nofun, ?_⟩
    rintro ⟨before, x, after, he, -⟩
    cases before <;> cases he
  | cons x xs ih =>
    rw [List.mapM_cons]
    cases hx : f x with
    | error e' =>
      change Except.error e' = .error e ↔ _
      refine ⟨fun h ↦ ⟨[], x, xs, rfl, nofun, hx.trans (congrArg _ (Except.error.inj h))⟩, ?_⟩
      rintro ⟨before, y, after, he, hbefore, hy⟩
      cases before with
      | nil =>
        cases he
        exact congrArg _ (Except.error.inj (hx.symm.trans hy))
      | cons z before =>
        cases he
        obtain ⟨b, hb⟩ := hbefore x List.mem_cons_self
        cases hx.symm.trans hb
    | ok y =>
      have hrest : (Except.ok y >>= fun y ↦ xs.mapM f >>= fun ys ↦ pure (y :: ys)) = .error e ↔
          xs.mapM f = .error e := by
        cases xs.mapM f <;> simp [bind, Except.bind, pure, Except.pure]
      rw [hrest, ih]
      constructor
      · rintro ⟨before, z, after, rfl, hbefore, hz⟩
        refine ⟨x :: before, z, after, rfl, ?_, hz⟩
        exact List.forall_mem_cons.mpr ⟨⟨y, hx⟩, hbefore⟩
      · rintro ⟨before, z, after, he, hbefore, hz⟩
        cases before with
        | nil =>
          cases he
          cases hx.symm.trans hz
        | cons w before =>
          cases he
          exact ⟨before, z, after, rfl, (List.forall_mem_cons.mp hbefore).2, hz⟩

end MapM

namespace Chord

/-- The index of a list of length `n` that a possibly negative one stands for, which
counts from the end. -/
def normal (n : Nat) (index : Int) : Int := if index < 0 then index + n else index

/-- The index is not among `-n .. n - 1`, and which of these two bounds it passes. -/
inductive Outside (n : Nat) (index : Int) : Int → Prop
  | below (h : index < -n) : Outside n index (-n)
  | above (h : n ≤ index) : Outside n index (n - 1)

/-- The rule copies what stands at the place `k` of `n` tones. -/
def Reaches (n : Nat) (rule : ChordRule) (k : Nat) : Prop :=
  normal n rule.head.toInt ≤ k ∧ k ≤ normal n rule.tail.toInt

/-- Why a rule of a chord letter cannot be applied. An index that is outside comes before a tone
that is fixed, and the head before the tail. -/
inductive Violates (letter : Char) (tones : List Tone) (rule : ChordRule) : Finding → Prop
  | head {bound : Int} (h : Outside tones.length rule.head.toInt bound) :
      Violates letter tones rule (.chordRange letter bound rule.head.toInt)
  | tail {bound : Int} (hhead : ∀ bound, ¬ Outside tones.length rule.head.toInt bound)
      (h : Outside tones.length rule.tail.toInt bound) :
      Violates letter tones rule (.chordRange letter bound rule.tail.toInt)
  | fixed {k : Nat} {tone : Tone} (hhead : ∀ bound, ¬ Outside tones.length rule.head.toInt bound)
      (htail : ∀ bound, ¬ Outside tones.length rule.tail.toInt bound)
      (hreach : Reaches tones.length rule k) (hk : tones[k]? = some tone) (h : tone.fixed) :
      Violates letter tones rule (.onFixedNote letter)

def Admits (letter : Char) (tones : List Tone) (rule : ChordRule) : Prop :=
  ∀ finding, ¬ Violates letter tones rule finding

/-- The copies that a rule makes: the tones it reaches in their order, moved by its delta
as far as offsets go. -/
def Copies (tones : List Tone) (rule : ChordRule) (copied : List Tone) : Prop :=
  ∀ k : Nat, copied[k]? =
    if normal tones.length rule.head.toInt + k ≤ normal tones.length rule.tail.toInt then
      tones[(normal tones.length rule.head.toInt + k).toNat]?.map fun tone ↦
        { tone with offset := .ofInt (max Semitones.lowest
          (min Semitones.highest (tone.offset.toInt + rule.delta.toInt))) }
    else none

/-- What one chord letter makes of the tones before it. The first rule that cannot be
applied leaves them all. -/
inductive Letter (chord? : Char → Option Chord) (letter : Char) (tones : List Tone) :
    List Tone → List Finding → Prop
  | unknown (h : chord? letter = none) : Letter chord? letter tones tones [.unknownChord letter]
  | refused {before after : Chord} {rule : ChordRule} {finding : Finding}
      (h : chord? letter = some (before ++ rule :: after))
      (hbefore : ∀ rule ∈ before, Admits letter tones rule)
      (hrule : Violates letter tones rule finding) : Letter chord? letter tones tones [finding]
  | applied {chord : Chord} {copies : List (List Tone)} {unused : List Nat}
      (h : chord? letter = some chord) (hall : ∀ rule ∈ chord, Admits letter tones rule)
      (hcopies : List.Forall₂ (Copies tones) chord copies)
      (hunused : ∀ k,
        k ∈ unused ↔ k < tones.length ∧ ∀ rule ∈ chord, ¬ Reaches tones.length rule k)
      (hsorted : unused.Pairwise (· < ·)) :
      Letter chord? letter tones copies.flatten
        (if unused = [] then [] else [.unusedNote letter unused])

inductive Letters (chord? : Char → Option Chord) : List Char → List Tone → List Tone →
    List Finding → Prop
  | nil (tones : List Tone) : Letters chord? [] tones tones []
  | cons {letter : Char} {letters : List Char} {tones next last : List Tone}
      {findings later : List Finding} (h : Letter chord? letter tones next findings)
      (hrest : Letters chord? letters next last later) :
      Letters chord? (letter :: letters) tones last (findings ++ later)

section Place

variable {n : Nat} {index : Int}

theorem place_eq_error_iff {bound : Int} : place n index = .error bound ↔
    Outside n index bound := by
  unfold place
  split
  next hbelow =>
    rw [Except.error.injEq]
    refine ⟨fun h ↦ h ▸ .below hbelow, ?_⟩
    rintro (- | habove)
    · rfl
    · omega
  next hbelow =>
    split
    next hneg =>
      refine ⟨nofun, ?_⟩
      rintro (h | h) <;> omega
    next hneg =>
      split
      next habove =>
        refine ⟨nofun, ?_⟩
        rintro (h | h) <;> omega
      next habove =>
        rw [Except.error.injEq]
        refine ⟨fun h ↦ h ▸ .above (by omega), ?_⟩
        rintro (h | -)
        · omega
        · rfl

theorem place_eq_ok_iff {k : Nat} :
    place n index = .ok k ↔ (∀ bound, ¬ Outside n index bound) ∧ normal n index = k := by
  have hinside : (∀ bound, ¬ Outside n index bound) ↔ -n ≤ index ∧ index < n := by
    refine ⟨fun h ↦ ⟨?_, ?_⟩, ?_⟩
    · exact Int.not_lt.mp fun hlt ↦ h _ (.below hlt)
    · exact Int.not_le.mp fun hle ↦ h _ (.above hle)
    · rintro ⟨hl, hu⟩ bound (h | h) <;> omega
  rw [hinside]
  unfold place normal
  split_ifs <;> simp only [Except.ok.injEq, false_iff, not_and] <;> omega

end Place

section Rule

variable {letter : Char} {tones : List Tone} {rule : ChordRule}

theorem range_eq {n : Nat} : range letter n rule = match place n rule.head.toInt,
    place n rule.tail.toInt with
    | .error bound, _ => .error (.chordRange letter bound rule.head.toInt)
    | .ok _, .error bound => .error (.chordRange letter bound rule.tail.toInt)
    | .ok head, .ok tail => .ok (head, tail) := by
  unfold range
  dsimp only
  rcases place n rule.head.toInt with _ | head <;> rcases place n rule.tail.toInt with
    _ | tail <;> rfl

theorem getElem?_cut {head tail k : Nat} :
    (cut head tail tones)[k]? = if head + k ≤ tail then tones[head + k]? else none := by
  unfold cut
  rw [List.getElem?_drop, List.getElem?_take]
  simp only [Nat.lt_succ_iff]

theorem mem_cut_iff {head tail : Nat} {tone : Tone} :
    tone ∈ cut head tail tones ↔ ∃ k, (head ≤ k ∧ k ≤ tail) ∧ tones[k]? = some tone := by
  simp only [List.mem_iff_getElem?, getElem?_cut, Option.ite_none_right_eq_some]
  constructor
  · rintro ⟨k, hle, hk⟩
    exact ⟨head + k, ⟨Nat.le_add_right _ _, hle⟩, hk⟩
  · rintro ⟨k, ⟨hhead, htail⟩, hk⟩
    obtain ⟨d, rfl⟩ := Nat.exists_eq_add_of_le hhead
    exact ⟨d, htail, hk⟩

theorem copy_of_places {head tail : Nat} (hhead : place tones.length rule.head.toInt = .ok head)
    (htail : place tones.length rule.tail.toInt = .ok tail) : copy letter tones rule =
      if (cut head tail tones).any Tone.fixed then .error (.onFixedNote letter)
      else .ok ((cut head tail tones).map (·.shift rule.delta)) := by
  unfold copy
  rw [range_eq, hhead, htail]
  change (if _ then _ else _) = _
  split <;> rfl

theorem copy_of_range {finding : Finding} (h : range letter tones.length rule = .error finding) :
    copy letter tones rule = .error finding := by
  unfold copy
  rw [h]
  rfl

theorem reaches_iff {n head tail k : Nat} (hhead : normal n rule.head.toInt = head)
    (htail : normal n rule.tail.toInt = tail) :
    Reaches n rule k ↔ head ≤ k ∧ k ≤ tail := by
  rw [Reaches, hhead, htail, Int.ofNat_le, Int.ofNat_le]

theorem any_fixed_iff {head tail : Nat} (hhead : normal tones.length rule.head.toInt = head)
    (htail : normal tones.length rule.tail.toInt = tail) : (cut head tail tones).any Tone.fixed ↔
      ∃ k tone, Reaches tones.length rule k ∧ tones[k]? = some tone ∧ tone.fixed := by
  simp only [List.any_eq_true, mem_cut_iff, reaches_iff hhead htail]
  constructor
  · rintro ⟨tone, ⟨k, hreach, hk⟩, hfixed⟩
    exact ⟨k, tone, hreach, hk, hfixed⟩
  · rintro ⟨k, tone, hreach, hk, hfixed⟩
    exact ⟨tone, ⟨k, hreach, hk⟩, hfixed⟩

theorem copy_eq_error_iff {finding : Finding} :
    copy letter tones rule = .error finding ↔ Violates letter tones rule finding := by
  cases hhead : place tones.length rule.head.toInt with
  | error bound =>
    have houtside := place_eq_error_iff.mp hhead
    rw [copy_of_range (by rw [range_eq, hhead])]
    constructor
    · intro h
      cases h
      exact .head houtside
    · rintro (h | ⟨h, -⟩ | ⟨h, -⟩)
      · rw [Except.error.inj (hhead.symm.trans (place_eq_error_iff.mpr h))]
      · exact absurd houtside (h _)
      · exact absurd houtside (h _)
  | ok head =>
    obtain ⟨hinside, hnormal⟩ := place_eq_ok_iff.mp hhead
    cases htail : place tones.length rule.tail.toInt with
    | error bound =>
      have houtside := place_eq_error_iff.mp htail
      rw [copy_of_range (by rw [range_eq, hhead, htail])]
      constructor
      · intro h
        cases h
        exact .tail hinside houtside
      · rintro (h | ⟨-, h⟩ | ⟨-, h⟩)
        · exact absurd h (hinside _)
        · rw [Except.error.inj (htail.symm.trans (place_eq_error_iff.mpr h))]
        · exact absurd houtside (h _)
    | ok tail =>
      obtain ⟨hinside', hnormal'⟩ := place_eq_ok_iff.mp htail
      rw [copy_of_places hhead htail]
      split
      next hfixed =>
        obtain ⟨k, tone, hreach, hk, hfixed⟩ := (any_fixed_iff hnormal hnormal').mp hfixed
        refine ⟨fun h ↦ (Except.error.inj h) ▸ .fixed hinside hinside' hreach hk hfixed, ?_⟩
        rintro (h | ⟨-, h⟩ | -)
        · exact absurd h (hinside _)
        · exact absurd h (hinside' _)
        · rfl
      next hfixed =>
        refine ⟨nofun, ?_⟩
        rintro (h | ⟨-, h⟩ | ⟨-, -, hreach, hk, h⟩)
        · exact absurd h (hinside _)
        · exact absurd h (hinside' _)
        · exact absurd ((any_fixed_iff hnormal hnormal').mpr ⟨_, _, hreach, hk, h⟩) hfixed

theorem admits_iff : Admits letter tones rule ↔ ∃ copied, copy letter tones rule = .ok copied := by
  unfold Admits
  cases hc : copy letter tones rule with
  | error finding =>
    refine ⟨fun h ↦ absurd (copy_eq_error_iff.mp hc) (h finding), ?_⟩
    rintro ⟨copied, h⟩
    cases h
  | ok copied =>
    refine ⟨fun _ ↦ ⟨copied, rfl⟩, fun _ finding h ↦ ?_⟩
    cases hc.symm.trans (copy_eq_error_iff.mpr h)

theorem places_of_copy {copied : List Tone} (h : copy letter tones rule = .ok copied) :
    ∃ head tail, range letter tones.length rule = .ok (head, tail) ∧
    normal tones.length rule.head.toInt = head ∧
      normal tones.length rule.tail.toInt = tail ∧
      copied = (cut head tail tones).map (·.shift rule.delta) := by
  cases hhead : place tones.length rule.head.toInt with
  | error bound =>
    rw [copy_of_range (by rw [range_eq, hhead])] at h
    cases h
  | ok head =>
    cases htail : place tones.length rule.tail.toInt with
    | error bound =>
      rw [copy_of_range (by rw [range_eq, hhead, htail])] at h
      cases h
    | ok tail =>
      rw [copy_of_places hhead htail] at h
      split at h
      · cases h
      · exact ⟨head, tail, by rw [range_eq, hhead, htail], (place_eq_ok_iff.mp hhead).2,
          (place_eq_ok_iff.mp htail).2, (Except.ok.inj h).symm⟩

theorem copies_of_copy {copied : List Tone} (h : copy letter tones rule = .ok copied) :
    Copies tones rule copied := by
  obtain ⟨head, tail, -, hhead, htail, rfl⟩ := places_of_copy h
  intro k
  rw [List.getElem?_map, getElem?_cut, hhead, htail]
  have hle : (head : Int) + k ≤ tail ↔ head + k ≤ tail := by omega
  have htoNat : ((head : Int) + k).toNat = head + k := by omega
  rw [htoNat]
  split
  next h => rw [if_pos (hle.mpr h)]; rfl
  next h => rw [if_neg (h ∘ hle.mp)]; rfl

theorem Copies.unique {copied copied' : List Tone} (h : Copies tones rule copied)
    (h' : Copies tones rule copied') :
    copied = copied' := List.ext_getElem? fun k ↦ (h k).trans (h' k).symm

theorem copy_eq_ok_iff {copied : List Tone} :
    copy letter tones rule = .ok copied ↔ Admits letter tones rule ∧ Copies tones rule copied := by
  refine ⟨fun h ↦ ⟨admits_iff.mpr ⟨copied, h⟩, copies_of_copy h⟩, ?_⟩
  rintro ⟨hadmits, hcopies⟩
  obtain ⟨copied', h⟩ := admits_iff.mp hadmits
  rw [h, (copies_of_copy h).unique hcopies]

theorem covers_iff {k : Nat} (h : Admits letter tones rule) :
    covers letter tones.length k rule ↔ Reaches tones.length rule k := by
  obtain ⟨copied, hcopy⟩ := admits_iff.mp h
  obtain ⟨head, tail, hrange, hhead, htail, -⟩ := places_of_copy hcopy
  simp only [covers, hrange, reaches_iff hhead htail, Bool.and_eq_true, decide_eq_true_eq]

end Rule

section Letter

variable {chord? : Char → Option Chord} {letter : Char} {tones : List Tone} {chord : Chord}

theorem apply_eq_error_iff {finding : Finding} : chord.apply letter tones = .error finding ↔
    ∃ before rule after, chord = before ++ rule :: after ∧
    (∀ rule ∈ before, Admits letter tones rule) ∧
      Violates letter tones rule finding := by
  have hmap : chord.apply letter tones = .error finding ↔ chord.mapM (copy letter tones) =
      .error finding := by
    unfold apply
    cases chord.mapM (copy letter tones) <;> simp [bind, Except.bind, pure, Except.pure]
  rw [hmap, mapM_eq_error_iff]
  simp only [admits_iff, copy_eq_error_iff]

def unreached (chord : Chord) (letter : Char) (n : Nat) : List Nat :=
  (List.range n).filter fun k ↦ !chord.any (covers letter n k)

theorem mem_unreached_iff {k : Nat} (h : ∀ rule ∈ chord, Admits letter tones rule) :
    k ∈ unreached chord letter tones.length ↔ k < tones.length ∧ ∀ rule ∈ chord,
    ¬ Reaches tones.length rule k := by
  rw [unreached, List.mem_filter, List.mem_range, Bool.not_eq_true', List.any_eq_false]
  refine and_congr_right fun _ ↦ forall₂_congr fun rule hmem ↦ ?_
  rw [covers_iff (h rule hmem)]

theorem sorted_unreached (chord : Chord) (letter : Char) (n : Nat) :
    (unreached chord letter n).Pairwise (· < ·) := List.pairwise_lt_range.filter _

theorem apply_eq_ok_iff {copied : List Tone} {unused : List Nat} :
    chord.apply letter tones = .ok (copied, unused) ↔
    ∃ copies, chord.mapM (copy letter tones) = .ok copies ∧ copied = copies.flatten ∧
      unused = unreached chord letter tones.length := by
  unfold apply unreached
  cases chord.mapM (copy letter tones) <;> simp [bind, Except.bind, pure, Except.pure, eq_comm]

theorem mapM_copy_eq_ok_iff {copies : List (List Tone)} :
    chord.mapM (copy letter tones) = .ok copies ↔
    (∀ rule ∈ chord, Admits letter tones rule) ∧ List.Forall₂ (Copies tones) chord copies := by
  simp only [mapM_eq_ok_iff, copy_eq_ok_iff, List.forall₂_and_left]

def turn (chord? : Char → Option Chord) (letter : Char) (tones : List Tone) :
    List Tone × List Finding :=
  match chord? letter with
  | none => (tones, [.unknownChord letter])
  | some chord => match chord.apply letter tones with
    | .error finding => (tones, [finding])
    | .ok (copies, unused) => (copies, if unused.isEmpty then [] else [.unusedNote letter unused])

theorem applyAll_cons (letters : List Char) : applyAll chord? (letter :: letters) tones =
    ((applyAll chord? letters (turn chord? letter tones).1).1,
      (turn chord? letter tones).2 ++ (applyAll chord? letters (turn chord? letter tones).1).2) :=
  rfl

theorem letter_turn :
    Letter chord? letter tones (turn chord? letter tones).1 (turn chord? letter tones).2 := by
  unfold turn
  split
  next h => exact .unknown h
  next chord h =>
    split
    next finding hchord =>
      obtain ⟨before, rule, after, rfl, hbefore, hrule⟩ := apply_eq_error_iff.mp hchord
      exact .refused h hbefore hrule
    next copied unused hchord =>
      obtain ⟨copies, hcopies, rfl, rfl⟩ := apply_eq_ok_iff.mp hchord
      obtain ⟨hall, hcopies⟩ := mapM_copy_eq_ok_iff.mp hcopies
      simp only [List.isEmpty_iff]
      exact .applied h hall hcopies (fun _ ↦ mem_unreached_iff hall) (sorted_unreached ..)

theorem Letter.eq_turn {next : List Tone} {findings : List Finding}
    (h : Letter chord? letter tones next findings) :
    turn chord? letter tones = (next, findings) := by
  unfold turn
  cases h with
  | unknown h => rw [h]
  | refused h hbefore hrule =>
    rw [h]
    dsimp only
    rw [apply_eq_error_iff.mpr ⟨_, _, _, rfl, hbefore, hrule⟩]
  | @applied chord copies unused h hall hcopies hunused hsorted =>
    have hsame : unused = unreached chord letter tones.length :=
      List.Pairwise.eq_of_mem_iff hsorted (sorted_unreached ..) fun k ↦
        (hunused k).trans (mem_unreached_iff hall).symm
    rw [h]
    dsimp only
    rw [apply_eq_ok_iff.mpr ⟨copies, mapM_copy_eq_ok_iff.mpr ⟨hall, hcopies⟩, rfl, hsame⟩]
    simp only [List.isEmpty_iff]

end Letter

/-- Chord letters are applied from the left, each to all the tones that the ones before it
have left, or to none. -/
theorem applyAll_eq_iff {chord? : Char → Option Chord} {letters : List Char}
    {tones last : List Tone} {findings : List Finding} :
    applyAll chord? letters tones = (last, findings) ↔
      Letters chord? letters tones last findings := by
  induction letters generalizing tones last findings with
  | nil =>
    refine ⟨fun h ↦ ?_, fun h ↦ ?_⟩
    · obtain ⟨rfl, rfl⟩ := Prod.mk.inj h
      exact .nil tones
    · cases h
      rfl
  | cons letter letters ih =>
    rw [applyAll_cons]
    refine ⟨fun h ↦ ?_, fun h ↦ ?_⟩
    · obtain ⟨rfl, rfl⟩ := Prod.mk.inj h
      exact .cons letter_turn (ih.mp rfl)
    · cases h with
      | cons hletter hrest => rw [hletter.eq_turn, ih.mpr hrest]

end Chord

end Rendition
