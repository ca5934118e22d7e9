import Rendition.Formula.Value

namespace Rendition.Formula

theorem bind_eq_ok {ε α β : Type} {x : Except ε α} {f : α → Except ε β} {b : β} :
    x >>= f = .ok b ↔ ∃ a, x = .ok a ∧ f a = .ok b := by
  cases x with
  | error e => exact ⟨nofun, fun ⟨a, ha, _⟩ ↦ nomatch ha⟩
  | ok a => exact ⟨fun h ↦ ⟨a, rfl, h⟩, fun ⟨_, ha, h⟩ ↦ Except.ok.inj ha ▸ h⟩

section Yields

variable {P Q : List Located → Prop} {value : Float} {ls rest : List Located}

def Yields (r : Except Fault (Float × { rest : List Located // P rest })) (value : Float)
    (rest : List Located) :
    Prop :=
  ∃ h : P rest, r = .ok (value, ⟨rest, h⟩)

theorem yields_pure {a : Float} {mid : List Located} {h : P mid} :
    Yields (pure (a, ⟨mid, h⟩) : Except Fault (Float × { rest : List Located // P rest }))
      value rest ↔
      value = a ∧ rest = mid := by
  constructor
  · rintro ⟨hrest, he⟩
    cases he
    exact ⟨rfl, rfl⟩
  · rintro ⟨rfl, rfl⟩
    exact ⟨h, rfl⟩

theorem not_yields_throw (fault : Fault) :
    ¬Yields (throw fault : Except Fault (Float × { rest : List Located // P rest }))
      value rest := by
  rintro ⟨h, he⟩
  cases he

theorem yields_bind {r : Except Fault (Float × { rest : List Located // P rest })}
    {next : Float × { rest : List Located // P rest } →
      Except Fault (Float × { rest : List Located // Q rest })}
    {R : Float → List Located → Prop}
    (hnext : ∀ a mid h, Yields (next (a, ⟨mid, h⟩)) value rest ↔ R a mid) :
    Yields (r >>= next) value rest ↔ ∃ a mid, Yields r a mid ∧ R a mid := by
  constructor
  · rintro ⟨hrest, he⟩
    obtain fault | ⟨a, mid, h⟩ := r
    · cases he
    · exact ⟨a, mid, ⟨h, rfl⟩, (hnext a mid h).mp ⟨hrest, he⟩⟩
  · rintro ⟨a, mid, ⟨h, rfl⟩, hR⟩
    exact (hnext a mid h).mpr hR

theorem yields_map {r : Except Fault (Float × { rest : List Located // P rest })}
    {next : Float × { rest : List Located // P rest } →
      Except Fault (Float × { rest : List Located // Q rest })}
    {f : Float → Float} (hnext : ∀ a mid h, ∃ h', next (a, ⟨mid, h⟩) = pure (f a, ⟨mid, h'⟩)) :
    Yields (r >>= next) value rest ↔ ∃ a, Yields r a rest ∧ value = f a := by
  refine (yields_bind (R := fun a mid ↦ value = f a ∧ rest = mid) ?_).trans ?_
  · intro a mid h
    obtain ⟨h', he⟩ := hnext a mid h
    rw [he]
    exact yields_pure
  · constructor
    · rintro ⟨a, mid, hr, hv, rfl⟩
      exact ⟨a, hr, hv⟩
    · rintro ⟨a, hr, hv⟩
      exact ⟨a, rest, hr, hv, rfl⟩

theorem yields_same {r : Except Fault (Float × { rest : List Located // P rest })}
    {next : Float × { rest : List Located // P rest } →
      Except Fault (Float × { rest : List Located // Q rest })}
    (hnext : ∀ a mid h, ∃ h', next (a, ⟨mid, h⟩) = pure (a, ⟨mid, h'⟩)) :
    Yields (r >>= next) value rest ↔ Yields r value rest := by
  rw [yields_map hnext]
  exact ⟨fun ⟨_, hr, hv⟩ ↦ hv ▸ hr, fun hr ↦ ⟨value, hr, rfl⟩⟩

theorem yields_expect {lexeme : Lexeme}
    {next : { rest : List Located // rest.length < ls.length } →
      Except Fault (Float × { rest : List Located // Q rest })}
    {R : List Located → Prop} (hnext : ∀ mid h, Yields (next ⟨mid, h⟩) value rest ↔ R mid) :
    Yields (expect lexeme ls >>= next) value rest ↔ ∃ offset mid, ls = ⟨lexeme, offset⟩ ::
      mid ∧ R mid := by
  cases ls with
  | nil =>
    refine ⟨fun h ↦ absurd h (not_yields_throw _), ?_⟩
    rintro ⟨offset, mid, he, -⟩
    cases he
  | cons l tail =>
    obtain ⟨lexeme', offset⟩ := l
    by_cases he : lexeme' = lexeme
    · subst he
      have hexpect : expect lexeme' (⟨lexeme', offset⟩ :: tail) =
          .ok ⟨tail, Nat.lt_succ_self _⟩ := by
        rw [expect, if_pos rfl]
      rw [hexpect]
      refine (hnext tail _).trans ⟨fun h ↦ ⟨offset, tail, rfl, h⟩, ?_⟩
      rintro ⟨offset', mid, hl, hR⟩
      cases hl
      exact hR
    · have hexpect : expect lexeme (⟨lexeme', offset⟩ :: tail) =
          .error (.unexpectedLexeme offset) := by
        rw [expect, if_neg he]
      rw [hexpect]
      refine ⟨fun h ↦ absurd h (not_yields_throw _), ?_⟩
      rintro ⟨offset', mid, hl, -⟩
      cases hl
      exact absurd rfl he

end Yields

def Begins (lexeme : Lexeme) (ls : List Located) : Prop :=
  ∃ offset tail, ls = ⟨lexeme, offset⟩ :: tail

section Productions

variable {value a : Float} {ls tail rest : List Located} {offset : Nat}

theorem yields_sum : Yields (sum ls) value rest ↔
    ∃ a mid, Yields (product ls) a mid ∧ Yields (sumFrom a mid) value rest := by
  rw [sum]
  exact yields_bind fun a mid h ↦ yields_same fun _ _ _ ↦ ⟨_, rfl⟩

theorem yields_sumFrom_plus : Yields (sumFrom a (⟨.plus, offset⟩ :: tail)) value rest ↔
    ∃ b mid, Yields (product tail) b mid ∧ Yields (sumFrom (a + b) mid) value rest := by
  rw [sumFrom]
  exact yields_bind fun b mid h ↦ yields_same fun _ _ _ ↦ ⟨_, rfl⟩

theorem yields_sumFrom_minus : Yields (sumFrom a (⟨.minus, offset⟩ :: tail)) value rest ↔
    ∃ b mid, Yields (product tail) b mid ∧ Yields (sumFrom (a - b) mid) value rest := by
  rw [sumFrom]
  exact yields_bind fun b mid h ↦ yields_same fun _ _ _ ↦ ⟨_, rfl⟩

theorem yields_sumFrom_end (hplus : ¬Begins .plus ls) (hminus : ¬Begins .minus ls) :
    Yields (sumFrom a ls) value rest ↔ value = a ∧ rest = ls := by
  rw [sumFrom.eq_3 a ls (fun offset tail he ↦ hplus ⟨offset, tail, he⟩) fun offset tail he ↦
    hminus ⟨offset, tail, he⟩]
  exact yields_pure

theorem yields_product : Yields (product ls) value rest ↔
    ∃ a mid, Yields (negation ls) a mid ∧ Yields (productFrom a mid) value rest := by
  rw [product]
  exact yields_bind fun a mid h ↦ yields_same fun _ _ _ ↦ ⟨_, rfl⟩

theorem yields_productFrom_times : Yields (productFrom a (⟨.times, offset⟩ :: tail)) value rest ↔
    ∃ b mid, Yields (negation tail) b mid ∧ Yields (productFrom (a * b) mid) value rest := by
  rw [productFrom]
  exact yields_bind fun b mid h ↦ yields_same fun _ _ _ ↦ ⟨_, rfl⟩

theorem yields_productFrom_over : Yields (productFrom a (⟨.over, offset⟩ :: tail)) value rest ↔
    ∃ b mid, Yields (negation tail) b mid ∧ (b == 0) = false ∧
    Yields (productFrom (a / b) mid) value rest := by
  rw [productFrom]
  refine yields_bind fun b mid h ↦ ?_
  dsimp only
  by_cases hb : (b == 0) = true
  · rw [if_pos hb]
    exact ⟨fun hy ↦ absurd hy (not_yields_throw _), fun hy ↦ absurd hb (ne_true_of_eq_false hy.1)⟩
  · rw [if_neg hb, and_iff_right (eq_false_of_ne_true hb)]
    exact yields_same fun _ _ _ ↦ ⟨_, rfl⟩

theorem yields_productFrom_end (htimes : ¬Begins .times ls) (hover : ¬Begins .over ls) :
    Yields (productFrom a ls) value rest ↔ value = a ∧ rest = ls := by
  rw [productFrom.eq_3 a ls (fun offset tail he ↦ htimes ⟨offset, tail, he⟩) fun offset tail he ↦
    hover ⟨offset, tail, he⟩]
  exact yields_pure

theorem yields_negation_minus : Yields (negation (⟨.minus, offset⟩ :: tail)) value rest ↔
    ∃ a, Yields (negation tail) a rest ∧ value = -a := by
  rw [negation]
  exact yields_map fun _ _ _ ↦ ⟨_, rfl⟩

theorem yields_negation_power (hminus : ¬Begins .minus ls) :
    Yields (negation ls) value rest ↔ Yields (power ls) value rest := by
  rw [negation.eq_2 ls fun offset tail he ↦ hminus ⟨offset, tail, he⟩]

theorem yields_power : Yields (power ls) value rest ↔
    ∃ a mid, Yields (primary ls) a mid ∧ Yields (powerFrom a mid) value rest := by
  rw [power]
  exact yields_bind fun a mid h ↦ yields_same fun _ _ _ ↦ ⟨_, rfl⟩

theorem yields_powerFrom : Yields (powerFrom a (⟨.power, offset⟩ :: tail)) value rest ↔
    ∃ b, Yields (negation tail) b rest ∧ value = a.pow b := by
  rw [powerFrom]
  exact yields_map fun _ _ _ ↦ ⟨_, rfl⟩

theorem yields_powerFrom_end (hpower : ¬Begins .power ls) :
    Yields (powerFrom a ls) value rest ↔ value = a ∧ rest = ls := by
  rw [powerFrom.eq_2 a ls fun offset tail he ↦ hpower ⟨offset, tail, he⟩]
  exact yields_pure

theorem yields_primary_number :
    Yields (primary (⟨.number a, offset⟩ :: tail)) value rest ↔ value = a ∧ rest = tail := by
  rw [primary]
  exact yields_pure

theorem yields_primary_opening : Yields (primary (⟨.opening, offset⟩ :: tail)) value rest ↔
    ∃ offset', Yields (sum tail) value (⟨.closing, offset'⟩ :: rest) := by
  rw [primary]
  refine (yields_bind fun a mid h ↦ yields_expect fun mid' h' ↦ yields_pure).trans ?_
  constructor
  · rintro ⟨a, mid, hsum, offset', mid', rfl, rfl, rfl⟩
    exact ⟨offset', hsum⟩
  · rintro ⟨offset', hsum⟩
    exact ⟨value, _, hsum, offset', rest, rfl, rfl, rfl⟩

theorem yields_primary_name {text : String} :
    Yields (primary (⟨.name text, offset⟩ :: tail)) value rest ↔
    text.toLower = "log2" ∧ ∃ offset₁ inner offset₂ a, tail = ⟨.opening, offset₁⟩ :: inner ∧
      Yields (sum inner) a (⟨.closing, offset₂⟩ :: rest) ∧ value = a.log2 := by
  rw [primary]
  by_cases ht : text.toLower = "log2"
  · rw [if_neg (not_not_intro ht)]
    refine (yields_expect fun inner h ↦ yields_bind fun a mid h' ↦ yields_expect fun mid' h'' ↦
      yields_pure).trans ?_
    constructor
    · rintro ⟨offset₁, inner, rfl, a, mid, hsum, offset₂, mid', rfl, rfl, rfl⟩
      exact ⟨ht, offset₁, inner, offset₂, a, rfl, hsum, rfl⟩
    · rintro ⟨-, offset₁, inner, offset₂, a, rfl, hsum, rfl⟩
      exact ⟨offset₁, inner, rfl, a, _, hsum, offset₂, rest, rfl, rfl, rfl⟩
  · rw [if_pos ht]
    exact ⟨fun hy ↦ absurd hy (not_yields_throw _), fun hy ↦ absurd hy.1 ht⟩

end Productions

end Rendition.Formula
