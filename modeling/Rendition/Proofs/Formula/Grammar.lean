import Rendition.Proofs.Formula.Reading
import Rendition.Proofs.Formula.Spelling

namespace Rendition.Formula

inductive Part where
  | sum
  | product
  | negation
  | power
  | primary

/-- The grammar of formulas, with the value of each part. Sums and products are read from the left;
an exponent is a negation, which holds all powers to its right, and a minus sign takes in a whole
power. Nothing is divided by zero. -/
inductive Derives : Part → List Lexeme → Float → Prop
  | product {ls : List Lexeme} {a : Float} (h : Derives .product ls a) : Derives .sum ls a
  | plus {ls ms : List Lexeme} {a b : Float} (h : Derives .sum ls a) (h' : Derives .product ms b) :
      Derives .sum (ls ++ .plus :: ms) (a + b)
  | minus {ls ms : List Lexeme} {a b : Float} (h : Derives .sum ls a) (h' : Derives .product ms b) :
      Derives .sum (ls ++ .minus :: ms) (a - b)
  | negation {ls : List Lexeme} {a : Float} (h : Derives .negation ls a) : Derives .product ls a
  | times {ls ms : List Lexeme} {a b : Float} (h : Derives .product ls a)
      (h' : Derives .negation ms b) :
      Derives .product (ls ++ .times :: ms) (a * b)
  | divide {ls ms : List Lexeme} {a b : Float} (h : Derives .product ls a)
      (h' : Derives .negation ms b) (hb : (b == 0) = false) :
      Derives .product (ls ++ .over :: ms) (a / b)
  | negative {ls : List Lexeme} {a : Float} (h : Derives .negation ls a) :
      Derives .negation (.minus :: ls) (-a)
  | power {ls : List Lexeme} {a : Float} (h : Derives .power ls a) : Derives .negation ls a
  | primary {ls : List Lexeme} {a : Float} (h : Derives .primary ls a) : Derives .power ls a
  | raised {ls ms : List Lexeme} {a b : Float} (h : Derives .primary ls a)
      (h' : Derives .negation ms b) :
      Derives .power (ls ++ .power :: ms) (a.pow b)
  | number (a : Float) : Derives .primary [.number a] a
  | parenthesis {ls : List Lexeme} {a : Float} (h : Derives .sum ls a) :
      Derives .primary (.opening :: (ls ++ [.closing])) a
  | logarithm {ls : List Lexeme} {a : Float} {text : String} (ht : text.toLower = "log2")
      (h : Derives .sum ls a) :
      Derives .primary (.name text :: .opening :: (ls ++ [.closing])) a.log2

example : Derives .sum [.minus, .number 2, .power, .number 2] (-(Float.pow 2 2)) :=
  .product (.negation (.negative (.power (.raised (.number 2) (.power (.primary (.number 2)))))))

section Sound

variable {P Q : List Located → Prop} {part before whole : Part} {a b c value : Float}
  {ls mid rest tail : List Located} {r : Except Fault (Float × { rest : List Located // P rest })}
  {r' : Except Fault (Float × { rest : List Located // Q rest })}

/-- Whatever has been read off the lexemes is a part of this kind and has its value. -/
def Sound (part : Part) (ls : List Located)
    (r : Except Fault (Float × { rest : List Located // P rest })) : Prop :=
  ∀ value rest, Yields r value rest →
    ∃ used, ls = used ++ rest ∧ Derives part (used.map Located.lexeme) value

def SoundFrom (before whole : Part) (a : Float) (ls : List Located)
    (r : Except Fault (Float × { rest : List Located // P rest })) : Prop :=
  ∀ value rest, Yields r value rest →
    ∃ used, ls = used ++ rest ∧
      ∀ front, Derives before front a → Derives whole (front ++ used.map Located.lexeme) value

theorem SoundFrom.nil (hpart : ∀ front, Derives before front a → Derives whole front a)
    (hend : ∀ value rest, Yields r value rest ↔ value = a ∧ rest = ls) :
    SoundFrom before whole a ls r := by
  intro value rest h
  obtain ⟨rfl, rfl⟩ := (hend value rest).mp h
  exact ⟨[], rfl, fun front hfront ↦ (List.append_nil front).symm ▸ hpart front hfront⟩

theorem SoundFrom.operator {operator : Located} (hfrom : SoundFrom whole whole c mid r')
    (hoperand : Sound part tail r) (hy : Yields r b mid) (hy' : Yields r' value rest)
    (hstep : ∀ front ms, Derives whole front a → Derives part ms b →
      Derives whole (front ++ operator.lexeme :: ms) c) :
    ∃ used, operator :: tail = used ++ rest ∧
      ∀ front, Derives whole front a → Derives whole (front ++ used.map Located.lexeme) value := by
  obtain ⟨ms, rfl, hms⟩ := hoperand b mid hy
  obtain ⟨more, rfl, hmore⟩ := hfrom value rest hy'
  refine ⟨operator :: ms ++ more, by simp, ?_⟩
  intro front hfront
  have hwhole := hmore _ (hstep front _ hfront hms)
  simpa using hwhole

theorem Sound.follow (hfirst : Sound part ls r) (hy : Yields r a mid)
    (hfrom : SoundFrom before whole a mid r') (hy' : Yields r' value rest)
    (hpart : ∀ front, Derives part front a → Derives before front a) :
    ∃ used, ls = used ++ rest ∧ Derives whole (used.map Located.lexeme) value := by
  obtain ⟨used, rfl, hused⟩ := hfirst a mid hy
  obtain ⟨more, rfl, hmore⟩ := hfrom value rest hy'
  refine ⟨used ++ more, (List.append_assoc _ _ _).symm, ?_⟩
  rw [List.map_append]
  exact hmore _ (hpart _ hused)

end Sound

/-- A sum that has been read is one by the grammar: by induction on the reading, each
production in its turn. -/
theorem sum_sound (ls : List Located) : Sound .sum ls (sum ls) := by
  refine (sum.mutual_induct (fun ls ↦ Sound .sum ls (sum ls)) (fun a ls ↦
    SoundFrom .sum .sum a ls (sumFrom a ls)) (fun ls ↦ Sound .product ls (product ls)) (fun a ls ↦
      SoundFrom .product .product a ls (productFrom a ls))
    (fun ls ↦ Sound .negation ls (negation ls)) (fun ls ↦ Sound .power ls (power ls))
    (fun a ls ↦ SoundFrom .primary .power a ls (powerFrom a ls)) (fun ls ↦
      Sound .primary ls (primary ls))
    ?sum ?plus ?minus ?sumEnd ?product ?times ?divide ?productEnd ?negative ?positive ?power ?raised
      ?powerEnd ?nil
    ?number ?opening ?unknown ?logarithm ?other).1 ls
  case sum =>
    intro ls hproduct hfrom value rest h
    obtain ⟨a, mid, hy, hy'⟩ := yields_sum.mp h
    exact hproduct.follow hy (hfrom a mid hy.1) hy' fun _ ↦ .product
  case plus =>
    intro a offset tail hproduct hfrom value rest h
    obtain ⟨b, mid, hy, hy'⟩ := yields_sumFrom_plus.mp h
    exact (hfrom b mid hy.1).operator hproduct hy hy' fun _ _ ↦ .plus
  case minus =>
    intro a offset tail hproduct hfrom value rest h
    obtain ⟨b, mid, hy, hy'⟩ := yields_sumFrom_minus.mp h
    exact (hfrom b mid hy.1).operator hproduct hy hy' fun _ _ ↦ .minus
  case sumEnd =>
    intro a ls hplus hminus
    exact .nil (fun _ ↦ id) fun value rest ↦
      yields_sumFrom_end (fun ⟨o, t, h⟩ ↦ hplus o t h) fun ⟨o, t, h⟩ ↦ hminus o t h
  case product =>
    intro ls hnegation hfrom value rest h
    obtain ⟨a, mid, hy, hy'⟩ := yields_product.mp h
    exact hnegation.follow hy (hfrom a mid hy.1) hy' fun _ ↦ .negation
  case times =>
    intro a offset tail hnegation hfrom value rest h
    obtain ⟨b, mid, hy, hy'⟩ := yields_productFrom_times.mp h
    exact (hfrom b mid hy.1).operator hnegation hy hy' fun _ _ ↦ .times
  case divide =>
    intro a offset tail hnegation hfrom value rest h
    obtain ⟨b, mid, hy, hb, hy'⟩ := yields_productFrom_over.mp h
    exact (hfrom b mid hy.1).operator hnegation hy hy' fun _ _ h h' ↦ .divide h h' hb
  case productEnd =>
    intro a ls htimes hover
    exact .nil (fun _ ↦ id) fun value rest ↦
      yields_productFrom_end (fun ⟨o, t, h⟩ ↦ htimes o t h) fun ⟨o, t, h⟩ ↦ hover o t h
  case negative =>
    intro offset tail hnegation value rest h
    obtain ⟨a, hy, rfl⟩ := yields_negation_minus.mp h
    obtain ⟨used, rfl, hused⟩ := hnegation a rest hy
    exact ⟨⟨.minus, offset⟩ :: used, rfl, .negative hused⟩
  case positive =>
    intro ls hminus hpower value rest h
    obtain ⟨used, rfl, hused⟩ :=
      hpower value rest ((yields_negation_power fun ⟨o, t, h⟩ ↦ hminus o t h).mp h)
    exact ⟨used, rfl, .power hused⟩
  case power =>
    intro ls hprimary hfrom value rest h
    obtain ⟨a, mid, hy, hy'⟩ := yields_power.mp h
    exact hprimary.follow hy (hfrom a mid hy.1) hy' fun _ ↦ id
  case raised =>
    intro a offset tail hnegation value rest h
    obtain ⟨b, hy, rfl⟩ := yields_powerFrom.mp h
    obtain ⟨used, rfl, hused⟩ := hnegation b rest hy
    exact ⟨⟨.power, offset⟩ :: used, rfl, fun front hfront ↦ .raised hfront hused⟩
  case powerEnd =>
    intro a ls hpower
    exact .nil (fun _ ↦ .primary) fun value rest ↦ yields_powerFrom_end fun ⟨o, t, h⟩ ↦ hpower o t h
  case nil =>
    intro value rest h
    rw [primary] at h
    exact absurd h (not_yields_throw _)
  case number =>
    intro a offset tail value rest h
    obtain ⟨rfl, rfl⟩ := yields_primary_number.mp h
    exact ⟨[⟨.number value, offset⟩], rfl, .number value⟩
  case opening =>
    intro offset tail hsum value rest h
    obtain ⟨offset', hy⟩ := yields_primary_opening.mp h
    obtain ⟨used, rfl, hused⟩ := hsum value _ hy
    refine ⟨⟨.opening, offset⟩ :: (used ++ [⟨.closing, offset'⟩]), by simp, ?_⟩
    simpa using Derives.parenthesis hused
  case unknown =>
    intro text offset tail ht _ value rest h
    exact absurd (yields_primary_name.mp h).1 ht
  case logarithm =>
    intro text offset tail _ hsum value rest h
    obtain ⟨ht, offset₁, inner, offset₂, a, rfl, hy, rfl⟩ := yields_primary_name.mp h
    obtain ⟨used, rfl, hused⟩ := hsum inner (Nat.lt_succ_self _) a _ hy
    refine ⟨⟨.name text, offset⟩ :: ⟨.opening, offset₁⟩ :: (used ++ [⟨.closing, offset₂⟩]),
      by simp, ?_⟩
    simpa using Derives.logarithm ht hused
  case other =>
    intro l tail hnumber hopening hname value rest h
    rw [primary.eq_5 l tail hnumber hopening hname] at h
    exact absurd h (not_yields_throw _)

theorem not_begins {lexeme : Lexeme} {l : Located} {tail : List Located} (h : l.lexeme ≠ lexeme) :
    ¬Begins lexeme (l :: tail) := by
  rintro ⟨offset, rest, he⟩
  cases he
  exact h rfl

theorem not_begins_nil (lexeme : Lexeme) : ¬Begins lexeme [] := by
  rintro ⟨offset, rest, he⟩
  cases he

theorem Derives.not_begins_minus {part : Part} {lexemes : List Lexeme} {a : Float}
    (h : Derives part lexemes a) (hpart : part = .power ∨ part = .primary) :
    ∀ {used rest : List Located}, used.map Located.lexeme = lexemes →
    ¬Begins .minus (used ++ rest) := by
  induction h with
  | product | plus | minus | negation | times | divide | negative | power =>
    obtain hpart | hpart := hpart <;> cases hpart
  | primary _ ih => exact ih (.inr rfl)
  | raised _ _ ih _ =>
    intro used rest he
    obtain ⟨front, more, rfl, hfront, -⟩ := List.map_eq_append_iff.mp he
    rw [List.append_assoc]
    exact ih (.inr rfl) hfront
  | number | parenthesis | logarithm =>
    intro used rest he
    obtain ⟨l, more, rfl, hl, -⟩ := List.map_eq_cons_iff.mp he
    exact not_begins (by rw [hl]; exact nofun)

/-- Reading finds a part, with its value, in front of lexemes that do not extend it. After a sum or
a product it goes on with what extends these to the right. -/
def Found (used : List Located) (a : Float) : Part → Prop
  | .sum => ∀ rest value rest', ¬Begins .power rest → ¬Begins .times rest → ¬Begins .over rest →
      Yields (sumFrom a rest) value rest' → Yields (sum (used ++ rest)) value rest'
  | .product => ∀ rest value rest', ¬Begins .power rest →
      Yields (productFrom a rest) value rest' → Yields (product (used ++ rest)) value rest'
  | .negation => ∀ rest, ¬Begins .power rest → Yields (negation (used ++ rest)) a rest
  | .power => ∀ rest, ¬Begins .power rest → Yields (power (used ++ rest)) a rest
  | .primary => ∀ rest, Yields (primary (used ++ rest)) a rest

theorem Found.closed {used : List Located} {a : Float} (h : Found used a .sum) {closing : Located}
    (hc : closing.lexeme = .closing) (rest : List Located) :
    Yields (sum (used ++ closing :: rest)) a (closing :: rest) := by
  have hnot (lexeme : Lexeme) (hl : .closing ≠ lexeme) : ¬Begins lexeme (closing :: rest) :=
    not_begins (by rw [hc]; exact hl)
  refine h _ _ _ (hnot _ nofun) (hnot _ nofun) (hnot _ nofun) ?_
  exact (yields_sumFrom_end (hnot _ nofun) (hnot _ nofun)).mpr ⟨rfl, rfl⟩

theorem found_of_derives {part : Part} {lexemes : List Lexeme} {a : Float}
    (h : Derives part lexemes a) :
    ∀ {used : List Located}, used.map Located.lexeme = lexemes → Found used a part := by
  induction h with
  | product _ ih =>
    intro used he rest value rest' hpower htimes hover hy
    exact yields_sum.mpr ⟨_, rest, ih he rest _ rest hpower
      ((yields_productFrom_end htimes hover).mpr ⟨rfl, rfl⟩), hy⟩
  | @plus ls ms a b _ _ ih ih' =>
    intro used he rest value rest' hpower htimes hover hy
    obtain ⟨front, more, rfl, hfront, hmore⟩ := List.map_eq_append_iff.mp he
    obtain ⟨⟨_, offset⟩, operand, rfl, rfl, hoperand⟩ := List.map_eq_cons_iff.mp hmore
    rw [List.append_assoc, List.cons_append]
    refine ih hfront _ _ _ (not_begins (by simp)) (not_begins (by simp)) (not_begins (by simp)) ?_
    exact yields_sumFrom_plus.mpr ⟨b, rest, ih' hoperand rest b rest hpower
      ((yields_productFrom_end htimes hover).mpr ⟨rfl, rfl⟩), hy⟩
  | @minus ls ms a b _ _ ih ih' =>
    intro used he rest value rest' hpower htimes hover hy
    obtain ⟨front, more, rfl, hfront, hmore⟩ := List.map_eq_append_iff.mp he
    obtain ⟨⟨_, offset⟩, operand, rfl, rfl, hoperand⟩ := List.map_eq_cons_iff.mp hmore
    rw [List.append_assoc, List.cons_append]
    refine ih hfront _ _ _ (not_begins (by simp)) (not_begins (by simp)) (not_begins (by simp)) ?_
    exact yields_sumFrom_minus.mpr ⟨b, rest, ih' hoperand rest b rest hpower
      ((yields_productFrom_end htimes hover).mpr ⟨rfl, rfl⟩), hy⟩
  | negation _ ih =>
    intro used he rest value rest' hpower hy
    exact yields_product.mpr ⟨_, rest, ih he rest hpower, hy⟩
  | @times ls ms a b _ _ ih ih' =>
    intro used he rest value rest' hpower hy
    obtain ⟨front, more, rfl, hfront, hmore⟩ := List.map_eq_append_iff.mp he
    obtain ⟨⟨_, offset⟩, operand, rfl, rfl, hoperand⟩ := List.map_eq_cons_iff.mp hmore
    rw [List.append_assoc, List.cons_append]
    refine ih hfront _ _ _ (not_begins (by simp)) ?_
    exact yields_productFrom_times.mpr ⟨b, rest, ih' hoperand rest hpower, hy⟩
  | @divide ls ms a b _ _ hb ih ih' =>
    intro used he rest value rest' hpower hy
    obtain ⟨front, more, rfl, hfront, hmore⟩ := List.map_eq_append_iff.mp he
    obtain ⟨⟨_, offset⟩, operand, rfl, rfl, hoperand⟩ := List.map_eq_cons_iff.mp hmore
    rw [List.append_assoc, List.cons_append]
    refine ih hfront _ _ _ (not_begins (by simp)) ?_
    exact yields_productFrom_over.mpr ⟨b, rest, ih' hoperand rest hpower, hb, hy⟩
  | negative _ ih =>
    intro used he rest hpower
    obtain ⟨⟨_, offset⟩, operand, rfl, rfl, hoperand⟩ := List.map_eq_cons_iff.mp he
    exact yields_negation_minus.mpr ⟨_, ih hoperand rest hpower, rfl⟩
  | power h ih =>
    intro used he rest hpower
    exact (yields_negation_power (h.not_begins_minus (.inl rfl) he)).mpr (ih he rest hpower)
  | primary _ ih =>
    intro used he rest hpower
    exact yields_power.mpr ⟨_, rest, ih he rest, (yields_powerFrom_end hpower).mpr ⟨rfl, rfl⟩⟩
  | raised _ _ ih ih' =>
    intro used he rest hpower
    obtain ⟨front, more, rfl, hfront, hmore⟩ := List.map_eq_append_iff.mp he
    obtain ⟨⟨_, offset⟩, operand, rfl, rfl, hoperand⟩ := List.map_eq_cons_iff.mp hmore
    rw [List.append_assoc, List.cons_append]
    exact yields_power.mpr ⟨_, _, ih hfront _,
      yields_powerFrom.mpr ⟨_, ih' hoperand rest hpower, rfl⟩⟩
  | number a =>
    intro used he rest
    obtain ⟨⟨_, offset⟩, more, rfl, rfl, hmore⟩ := List.map_eq_cons_iff.mp he
    obtain rfl := List.map_eq_nil_iff.mp hmore
    exact yields_primary_number.mpr ⟨rfl, rfl⟩
  | parenthesis _ ih =>
    intro used he rest
    obtain ⟨⟨_, offset⟩, more, rfl, rfl, hmore⟩ := List.map_eq_cons_iff.mp he
    obtain ⟨inner, last, rfl, hinner, hlast⟩ := List.map_eq_append_iff.mp hmore
    obtain ⟨⟨_, offset'⟩, none, rfl, rfl, hnone⟩ := List.map_eq_cons_iff.mp hlast
    obtain rfl := List.map_eq_nil_iff.mp hnone
    rw [List.cons_append, List.append_assoc]
    refine yields_primary_opening.mpr ⟨offset', ?_⟩
    exact (ih hinner).closed rfl rest
  | logarithm ht _ ih =>
    intro used he rest
    obtain ⟨⟨_, offset⟩, tail, rfl, rfl, htail⟩ := List.map_eq_cons_iff.mp he
    obtain ⟨⟨_, offset₁⟩, more, rfl, rfl, hmore⟩ := List.map_eq_cons_iff.mp htail
    obtain ⟨inner, last, rfl, hinner, hlast⟩ := List.map_eq_append_iff.mp hmore
    obtain ⟨⟨_, offset₂⟩, none, rfl, rfl, hnone⟩ := List.map_eq_cons_iff.mp hlast
    obtain rfl := List.map_eq_nil_iff.mp hnone
    refine yields_primary_name.mpr ⟨ht, offset₁, inner ++ ⟨.closing, offset₂⟩ :: rest, offset₂, _,
      ?_, ?_, rfl⟩
    · simp
    · exact (ih hinner).closed rfl rest

theorem evaluate_ok {source : String} {value : Float} : evaluate source = .ok value ↔
    ∃ ls, Lexeme.scan 0 source.toList = .ok ls ∧ Yields (sum ls) value [] ∧ value.isFinite := by
  unfold evaluate
  rw [bind_eq_ok]
  refine exists_congr fun ls ↦ and_congr_right fun _ ↦ ?_
  rw [bind_eq_ok]
  constructor
  · rintro ⟨⟨a, l | ⟨l, rest⟩, hrest⟩, hsum, h⟩
    · dsimp only at h
      by_cases hfinite : a.isFinite
      · rw [if_pos hfinite] at h
        obtain rfl := Except.ok.inj h
        exact ⟨⟨hrest, hsum⟩, hfinite⟩
      · rw [if_neg hfinite] at h
        cases h
    · cases h
  · rintro ⟨⟨hrest, hsum⟩, hfinite⟩
    exact ⟨_, hsum, if_pos hfinite⟩

/-- A formula has the value that the grammar gives it, if that is finite. Where the grammar gives no
finite value, evaluation ends as well, with a fault. -/
theorem evaluate_eq_ok_iff (source : String) :
    (∀ value, evaluate source = .ok value ↔
      (∃ lexemes, Written source.toList lexemes ∧ Derives .sum lexemes value) ∧ value.isFinite) ∧
    ((∃ fault, evaluate source = .error fault) ↔
      ¬∃ value, (∃ lexemes, Written source.toList lexemes ∧ Derives .sum lexemes value) ∧
      value.isFinite) := by
  have hok : ∀ value, evaluate source = .ok value ↔
      (∃ lexemes, Written source.toList lexemes ∧ Derives .sum lexemes value) ∧ value.isFinite := by
    intro value
    rw [evaluate_ok]
    constructor
    · rintro ⟨ls, hscan, hsum, hfinite⟩
      obtain ⟨used, rfl, hused⟩ := sum_sound ls value [] hsum
      rw [List.append_nil] at hscan
      exact ⟨⟨_, (Lexeme.placed_of_scan hscan).written, hused⟩, hfinite⟩
    · rintro ⟨⟨lexemes, hwritten, hderives⟩, hfinite⟩
      obtain ⟨ls, hscan, hls⟩ := Lexeme.scan_of_written hwritten 0
      have hnil := not_begins_nil
      have hsum := found_of_derives hderives hls [] value [] (hnil _) (hnil _) (hnil _)
        ((yields_sumFrom_end (hnil _) (hnil _)).mpr ⟨rfl, rfl⟩)
      rw [List.append_nil] at hsum
      exact ⟨ls, hscan, hsum, hfinite⟩
  refine ⟨hok, ?_⟩
  rw [not_exists, ← forall_congr' fun value ↦ not_congr (hok value)]
  cases evaluate source with
  | error fault => exact iff_of_true ⟨fault, rfl⟩ fun value ↦ nofun
  | ok value => exact iff_of_false (fun ⟨fault, h⟩ ↦ nomatch h) fun h ↦ h value rfl

end Rendition.Formula
