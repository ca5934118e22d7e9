import Rendition.Proofs.Number.Units

namespace Rendition.Number

/-- Equal, but for the sign of a zero. -/
def Same (f g : Float) : Prop := f = g ∨ f == 0 ∧ g == 0

/-- As numbers, two floats add up to a third, be it their rounded sum or not. -/
def Adds (f g sum : Float) : Prop :=
  ∃ n m, units? f = some n ∧ units? g = some m ∧ units? sum = some (n + m)

/-- As a number, `f` has been moved by `delta` so many times. -/
def Moved (delta : Float) : (times : Nat) → (f g : Float) → Prop
  | 0, f, g => f = g
  | times + 1, f, g =>
    ∃ n m, units? delta = some n ∧ units? f = some m ∧ units? g = some (m + (times + 1 : Nat) * n)

variable {delta e f f' g g' : Float} {n : Int} {k : Nat}

theorem Same.of_units (hf : units? f = some n) (hg : units? g = some n) : Same f g := by
  by_cases hn : n = 0
  · exact .inr ⟨by rw [beq_zero hf, hn]; rfl, by rw [beq_zero hg, hn]; rfl⟩
  · -- Only a zero has two signs.
    obtain ⟨x, hx, hxn⟩ := Option.map_eq_some_iff.mp hf
    obtain ⟨y, hy, hyn⟩ := Option.map_eq_some_iff.mp hg
    have hreads : Reads f n := ⟨x, hx, hxn, fun h ↦ absurd h hn⟩
    exact .inl (hreads.eq ⟨y, hy, hyn, fun h ↦ absurd h hn⟩)

theorem ExactSum.adds (h : ExactSum f g) : Adds f g (f + g) := by
  obtain ⟨hsome, hsum⟩ := h
  rw [hsum] at hsome
  cases hf : units? f with
  | none => rw [hf] at hsome; cases hsome
  | some n =>
    cases hg : units? g with
    | none => rw [hf, hg] at hsome; cases hsome
    | some m => exact ⟨n, m, hf, hg, by rw [hsum, hf, hg]; rfl⟩

namespace Adds

theorem zero (h : Adds f g e) : Adds f 0 f := by
  obtain ⟨n, m, hn, -, -⟩ := h
  exact ⟨n, 0, hn, reads_zero.units?, by rw [hn, Int.add_zero]⟩

theorem comm (h : Adds f g e) : Adds g f e := by
  obtain ⟨n, m, hn, hm, hsum⟩ := h
  exact ⟨m, n, hm, hn, by rw [hsum, Int.add_comm]⟩

theorem same (h : Adds f g e) (h' : Adds f g f') : Same e f' := by
  obtain ⟨n, m, hn, hm, he⟩ := h
  obtain ⟨n', m', hn', hm', he'⟩ := h'
  obtain rfl := Option.some.inj (hn.symm.trans hn')
  obtain rfl := Option.some.inj (hm.symm.trans hm')
  exact .of_units he he'

theorem add (h : Adds f g e) {x : Float} (hg : ExactSum g x) (he : ExactSum e x) :
    Adds f (g + x) (e + x) := by
  obtain ⟨n, m, hn, hm, hsum⟩ := h
  obtain ⟨m', l, hm', hl, hgx⟩ := hg.adds
  obtain ⟨k, l', hk, hl', hex⟩ := he.adds
  obtain rfl := Option.some.inj (hm.symm.trans hm')
  obtain rfl := Option.some.inj (hsum.symm.trans hk)
  obtain rfl := Option.some.inj (hl.symm.trans hl')
  exact ⟨n, m + l, hn, hgx, by rw [hex, Int.add_assoc]⟩

theorem add_left (h : Adds f g e) {x : Float} (hg : ExactSum x g) (he : ExactSum x e) :
    Adds f (x + g) (x + e) := by
  obtain ⟨n, m, hn, hm, hsum⟩ := h
  obtain ⟨l, m', hl, hm', hgx⟩ := hg.adds
  obtain ⟨l', k, hl', hk, hex⟩ := he.adds
  obtain rfl := Option.some.inj (hm.symm.trans hm')
  obtain rfl := Option.some.inj (hsum.symm.trans hk)
  obtain rfl := Option.some.inj (hl.symm.trans hl')
  exact ⟨n, l + m, hn, hgx, by rw [hex, Int.add_left_comm]⟩

end Adds

namespace Moved

theorem units_eq (h : Moved delta k f g) (hn : units? delta = some n) {m : Int}
    (hg : units? g = some m) :
    ∃ l, units? f = some l ∧ m = l + k * n := by
  cases k with
  | zero =>
    obtain rfl : f = g := h
    exact ⟨m, hg, by simp⟩
  | succ k =>
    obtain ⟨n', l, hn', hl, hg'⟩ := h
    obtain rfl := Option.some.inj (hn.symm.trans hn')
    exact ⟨l, hl, Option.some.inj (hg.symm.trans hg')⟩

theorem succ {m : Int} (hn : units? delta = some n) (hf : units? f = some m)
    (hg : units? g = some (m + (k * n + n))) : Moved delta (k + 1) f g := by
  refine ⟨n, m, hn, hf, ?_⟩
  rw [hg, Nat.cast_add_one, add_one_mul]

theorem same (h : Moved delta k f g) (h' : Moved delta k f g') : Same g g' := by
  cases k with
  | zero =>
    obtain rfl : f = g := h
    exact .inl h'
  | succ k =>
    obtain ⟨n, m, hn, hm, hg⟩ := h
    obtain ⟨n', m', hn', hm', hg'⟩ := h'
    obtain rfl := Option.some.inj (hn.symm.trans hn')
    obtain rfl := Option.some.inj (hm.symm.trans hm')
    exact .of_units hg hg'

theorem add (h : Moved delta k f g) {part whole : Float} (hwhole : Adds delta part whole)
    (hf : ExactSum f part) (hg : ExactSum g whole) :
    Moved delta (k + 1) (f + part) (g + whole) := by
  obtain ⟨n, l, hn, hl, hsum⟩ := hwhole
  obtain ⟨m, l', hm, hl', hfp⟩ := hf.adds
  obtain ⟨m', w, hm', hw, hgw⟩ := hg.adds
  obtain rfl := Option.some.inj (hl.symm.trans hl')
  obtain rfl := Option.some.inj (hsum.symm.trans hw)
  obtain ⟨m'', hm'', rfl⟩ := h.units_eq hn hm'
  obtain rfl := Option.some.inj (hm.symm.trans hm'')
  refine .succ hn hfp ?_
  rw [hgw]
  congr 1
  omega

theorem move (h : Moved delta k f g) (hg : ExactSum g delta) :
    Moved delta (k + 1) f (g + delta) := by
  obtain ⟨m', n, hm', hn, hsum⟩ := hg.adds
  obtain ⟨m, hm, rfl⟩ := h.units_eq hn hm'
  exact .succ hn hm (by rw [hsum, Int.add_assoc])

end Moved

end Rendition.Number
