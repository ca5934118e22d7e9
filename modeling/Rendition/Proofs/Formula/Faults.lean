import Rendition.Proofs.Formula.Outlook

namespace Rendition.Formula

def Part.extendsTo : Part → Lexeme → Bool
  | sum, lexeme => lexeme.isOperator
  | product, lexeme => lexeme.isMultiplicative || lexeme = .power
  | negation, lexeme | power, lexeme => lexeme = .power
  | primary, _ => false

def Part.EndsAt (part : Part) (rest : List Located) : Prop :=
  ∀ l ∈ rest.head?, part.extendsTo l.lexeme = false

/-- A fault names the first lexeme that is not what is to come, or says that something was
still to come at the end. The other faults concern no place among the lexemes; a character
is never one of them. -/
def Fault.Blames (outlook : Outlook) (ls : List Located) : Fault → Prop
  | unexpectedLexeme offset =>
    ∃ before l after next, ls = before ++ l :: after ∧ l.offset = offset ∧
      outlook.run (before.map Located.lexeme) = some next ∧ next.step l.lexeme = none
  | unexpectedEnd => ∃ next, outlook.run (ls.map Located.lexeme) = some next ∧ next ≠ .operator 0
  | unexpectedCharacter _ _ => False
  | unknownFunction _ | divisionByZero | notFinite => True

section Tracks

variable {P Q : List Located → Prop} {part whole : Part} {outlook next : Outlook} {depth : Nat}
  {value : Float} {l : Located} {ls mid tail : List Located} {fault : Fault}
  {r : Except Fault (Float × { rest : List Located // P rest })}

theorem Fault.Blames.append (hused : outlook.run (ls.map Located.lexeme) = some next)
    (h : fault.Blames next mid) :
    fault.Blames outlook (ls ++ mid) := by
  cases fault with
  | unexpectedLexeme offset =>
    obtain ⟨before, l, after, last, rfl, hl, hrun, hstep⟩ := h
    refine ⟨ls ++ before, l, after, last, by simp, hl, ?_, hstep⟩
    rw [List.map_append, Outlook.run_append, hused, Option.bind_some, hrun]
  | unexpectedEnd =>
    obtain ⟨last, hrun, hlast⟩ := h
    refine ⟨last, ?_, hlast⟩
    rw [List.map_append, Outlook.run_append, hused, Option.bind_some, hrun]
  | unexpectedCharacter => exact h
  | unknownFunction | divisionByZero | notFinite => trivial

/-- What is read off the lexemes is what was to come, up to the end of a part, and a fault is blamed
on the first lexeme that was not. -/
def Tracks (part : Part) (outlook : Outlook) (depth : Nat) (ls : List Located)
    (r : Except Fault (Float × { rest : List Located // P rest })) : Prop :=
  match r with
  | .ok (_, ⟨rest, _⟩) => part.EndsAt rest ∧ ∃ used, ls = used ++ rest ∧
      outlook.run (used.map Located.lexeme) = some (.operator depth)
  | .error fault => fault.Blames outlook ls

theorem Tracks.pure {h : P ls} (hend : part.EndsAt ls) : Tracks part (.operator depth) depth ls
    (Pure.pure (value, ⟨ls, h⟩) : Except Fault (Float × { rest : List Located // P rest })) :=
  ⟨hend, [], rfl, rfl⟩

theorem Tracks.append (used : List Located)
    (hused : outlook.run (used.map Located.lexeme) = some next) (h : Tracks part next depth ls r) :
    Tracks part outlook depth (used ++ ls) r := by
  obtain fault | ⟨value, rest, hrest⟩ := r
  · exact Fault.Blames.append hused h
  · obtain ⟨hend, more, rfl, hmore⟩ := h
    refine ⟨hend, used ++ more, (List.append_assoc _ _ _).symm, ?_⟩
    rw [List.map_append, Outlook.run_append, hused, Option.bind_some, hmore]

theorem Tracks.cons (hstep : outlook.step l.lexeme = some next) (h : Tracks part next depth ls r) :
    Tracks part outlook depth (l :: ls) r := by
  refine .append [l] ?_ h
  rw [List.map_singleton, Outlook.run_cons, hstep]
  rfl

theorem Tracks.bind {cont : Float × { rest : List Located // P rest } →
      Except Fault (Float × { rest : List Located // Q rest })} (h : Tracks part outlook depth ls r)
    {depth' : Nat}
    (hcont : ∀ a mid h, part.EndsAt mid →
      Tracks whole (.operator depth) depth' mid (cont (a, ⟨mid, h⟩))) :
    Tracks whole outlook depth' ls (r >>= cont) := by
  obtain fault | ⟨a, mid, hmid⟩ := r
  · exact h
  · obtain ⟨hend, used, rfl, hused⟩ := h
    exact .append used hused (hcont a mid hmid hend)

theorem Tracks.expect {lexeme : Lexeme}
    {cont : { rest : List Located // rest.length < ls.length } →
      Except Fault (Float × { rest : List Located // Q rest })}
    (hstep : outlook.step lexeme = some next) (hend : outlook ≠ .operator 0)
    (hother : ∀ l ∈ ls.head?, l.lexeme ≠ lexeme → outlook.step l.lexeme = none)
    (hcont : ∀ mid h, Tracks part next depth mid (cont ⟨mid, h⟩)) :
    Tracks part outlook depth ls (expect lexeme ls >>= cont) := by
  cases ls with
  | nil => exact ⟨outlook, rfl, hend⟩
  | cons l tail =>
    by_cases hl : l.lexeme = lexeme
    · have hexpect : Formula.expect lexeme (l :: tail) = .ok ⟨tail, Nat.lt_succ_self _⟩ := by
        rw [Formula.expect, if_pos hl]
      rw [hexpect]
      exact (hcont tail _).cons (hl ▸ hstep)
    · have hexpect : Formula.expect lexeme (l :: tail) = .error (.unexpectedLexeme l.offset) := by
        rw [Formula.expect, if_neg hl]
      rw [hexpect]
      exact ⟨[], l, tail, outlook, rfl, rfl, rfl, hother l rfl hl⟩

end Tracks

section Steps

variable {depth : Nat} {lexeme : Lexeme} {ls : List Located}

theorem Outlook.step_operator_other (ho : lexeme.isOperator = false)
    (h : lexeme = .closing → depth = 0) :
    (operator depth).step lexeme = none := by
  cases lexeme with
  | closing =>
    obtain rfl := h rfl
    rfl
  | number | name | opening => cases depth <;> rfl
  | _ => cases ho

theorem Outlook.step_opening_other (h : lexeme ≠ .opening) :
    (opening depth).step lexeme = none := by
  cases lexeme with
  | opening => exact absurd rfl h
  | _ => rfl

theorem endsAt_primary (ls : List Located) : Part.primary.EndsAt ls := fun _ _ ↦ rfl

theorem endsAt_power (hpower : ¬Begins .power ls) : Part.power.EndsAt ls := by
  rintro ⟨lexeme, offset⟩ hl
  obtain ⟨tail, rfl⟩ := List.head?_eq_some_iff.mp hl
  exact decide_eq_false fun he ↦ hpower ⟨offset, tail, he ▸ rfl⟩

theorem endsAt_product (h : Part.negation.EndsAt ls) (htimes : ¬Begins .times ls)
    (hover : ¬Begins .over ls) :
    Part.product.EndsAt ls := by
  rintro ⟨lexeme, offset⟩ hl
  have hpower := h _ hl
  obtain ⟨tail, rfl⟩ := List.head?_eq_some_iff.mp hl
  cases lexeme with
  | times => exact absurd ⟨offset, tail, rfl⟩ htimes
  | number | name | plus | minus | power | opening | closing => exact hpower
  | _ => exact absurd ⟨offset, tail, rfl⟩ hover

theorem endsAt_sum (h : Part.product.EndsAt ls) (hplus : ¬Begins .plus ls)
    (hminus : ¬Begins .minus ls) :
    Part.sum.EndsAt ls := by
  rintro ⟨lexeme, offset⟩ hl
  have hproduct := h _ hl
  obtain ⟨tail, rfl⟩ := List.head?_eq_some_iff.mp hl
  cases lexeme with
  | plus => exact absurd ⟨offset, tail, rfl⟩ hplus
  | minus => exact absurd ⟨offset, tail, rfl⟩ hminus
  | _ => exact hproduct

end Steps

theorem Tracks.closing {depth : Nat} {value : Float} {ls : List Located} {Q : List Located → Prop}
    (hend : Part.sum.EndsAt ls) (hQ : ∀ mid : List Located, mid.length < ls.length → Q mid) :
    Tracks .primary (.operator (depth + 1)) depth ls (do
      let ⟨rest, h⟩ ← Formula.expect .closing ls
      return (value, (⟨rest, hQ rest h⟩ : { rest : List Located // Q rest }))) := by
  refine .expect rfl nofun ?_ fun mid h ↦ .pure (endsAt_primary mid)
  intro l hl hother
  exact Outlook.step_operator_other (hend l hl) fun he ↦ absurd he hother

theorem not_begins_of {lexeme : Lexeme} {ls : List Located}
    (h : ∀ offset tail, ls = ⟨lexeme, offset⟩ :: tail → False) : ¬Begins lexeme ls := by
  rintro ⟨offset, tail, he⟩
  exact h offset tail he

/-- By induction on the reading. The parts that read on after an operand rely on what ended it, and
a power is never looked for at a minus sign. -/
theorem sum_tracks (ls : List Located) :
    ∀ depth, Tracks .sum (.operand depth) depth ls (sum ls) := by
  refine (sum.mutual_induct (fun ls ↦ ∀ depth, Tracks .sum (.operand depth) depth ls (sum ls))
    (fun a ls ↦ ∀ depth, Part.product.EndsAt ls →
      Tracks .sum (.operator depth) depth ls (sumFrom a ls))
    (fun ls ↦ ∀ depth, Tracks .product (.operand depth) depth ls (product ls))
    (fun a ls ↦ ∀ depth, Part.negation.EndsAt ls →
      Tracks .product (.operator depth) depth ls (productFrom a ls))
    (fun ls ↦ ∀ depth, Tracks .negation (.operand depth) depth ls (negation ls))
    (fun ls ↦ ∀ depth, ¬Begins .minus ls → Tracks .power (.operand depth) depth ls (power ls))
    (fun a ls ↦ ∀ depth, Tracks .power (.operator depth) depth ls (powerFrom a ls))
    (fun ls ↦ ∀ depth, ¬Begins .minus ls → Tracks .primary (.operand depth) depth ls (primary ls))
    ?sum ?plus ?minus ?sumEnd ?product ?times ?divide ?productEnd ?negative ?positive ?power ?raised
    ?powerEnd ?nil ?number ?opening ?unknown ?logarithm ?other).1 ls
  case sum =>
    intro ls hproduct hfrom depth
    rw [sum]
    refine (hproduct depth).bind fun a mid h hend ↦ ?_
    exact (hfrom a mid h depth hend).bind fun _ _ _ hend ↦ .pure hend
  case plus =>
    intro a offset tail hproduct hfrom depth hend
    rw [sumFrom]
    refine .cons (Outlook.step_operator rfl depth) ((hproduct depth).bind fun b mid h hend ↦ ?_)
    exact (hfrom b mid h depth hend).bind fun _ _ _ hend ↦ .pure hend
  case minus =>
    intro a offset tail hproduct hfrom depth hend
    rw [sumFrom]
    refine .cons (Outlook.step_operator rfl depth) ((hproduct depth).bind fun b mid h hend ↦ ?_)
    exact (hfrom b mid h depth hend).bind fun _ _ _ hend ↦ .pure hend
  case sumEnd =>
    intro a ls hplus hminus depth hend
    rw [sumFrom.eq_3 a ls hplus hminus]
    exact .pure (endsAt_sum hend (not_begins_of hplus) (not_begins_of hminus))
  case product =>
    intro ls hnegation hfrom depth
    rw [product]
    refine (hnegation depth).bind fun a mid h hend ↦ ?_
    exact (hfrom a mid h depth hend).bind fun _ _ _ hend ↦ .pure hend
  case times =>
    intro a offset tail hnegation hfrom depth hend
    rw [productFrom]
    refine .cons (Outlook.step_operator rfl depth) ((hnegation depth).bind fun b mid h hend ↦ ?_)
    exact (hfrom b mid h depth hend).bind fun _ _ _ hend ↦ .pure hend
  case divide =>
    intro a offset tail hnegation hfrom depth hend
    rw [productFrom]
    refine .cons (Outlook.step_operator rfl depth) ((hnegation depth).bind fun b mid h hend ↦ ?_)
    dsimp only
    by_cases hb : (b == 0) = true
    · rw [if_pos hb]
      exact trivial
    · rw [if_neg hb]
      exact (hfrom b mid h depth hend).bind fun _ _ _ hend ↦ .pure hend
  case productEnd =>
    intro a ls htimes hover depth hend
    rw [productFrom.eq_3 a ls htimes hover]
    exact .pure (endsAt_product hend (not_begins_of htimes) (not_begins_of hover))
  case negative =>
    intro offset tail hnegation depth
    rw [negation]
    exact .cons rfl ((hnegation depth).bind fun _ _ _ hend ↦ .pure hend)
  case positive =>
    intro ls hminus hpower depth
    rw [negation.eq_2 ls hminus]
    exact hpower depth (not_begins_of hminus)
  case power =>
    intro ls hprimary hfrom depth hminus
    rw [power]
    refine (hprimary depth hminus).bind fun a mid h _ ↦ ?_
    exact (hfrom a mid h depth).bind fun _ _ _ hend ↦ .pure hend
  case raised =>
    intro a offset tail hnegation depth
    rw [powerFrom]
    exact .cons (Outlook.step_operator rfl depth)
      ((hnegation depth).bind fun _ _ _ hend ↦ .pure hend)
  case powerEnd =>
    intro a ls hpower depth
    rw [powerFrom.eq_2 a ls hpower]
    exact .pure (endsAt_power (not_begins_of hpower))
  case nil =>
    intro depth _
    rw [primary]
    exact ⟨.operand depth, rfl, Outlook.noConfusion⟩
  case number =>
    intro a offset tail depth _
    rw [primary]
    exact .cons rfl (.pure (endsAt_primary tail))
  case opening =>
    intro offset tail hsum depth _
    rw [primary]
    exact .cons rfl ((hsum (depth + 1)).bind fun _ _ h hend ↦ .closing hend _)
  case unknown =>
    intro text offset tail ht _ depth _
    rw [primary, if_pos ht]
    exact trivial
  case logarithm =>
    intro text offset tail ht hsum depth _
    have hname : (Outlook.operand depth).step (.name text) = some (.opening depth) :=
      if_pos (Decidable.not_not.mp ht)
    rw [primary, if_neg ht]
    refine .cons hname (.expect rfl Outlook.noConfusion (fun _ _ hl ↦ Outlook.step_opening_other hl)
      fun inner h ↦ ?_)
    exact (hsum inner h (depth + 1)).bind fun _ _ _ hend ↦ .closing hend _
  case other =>
    intro l tail hnumber hopening hname depth hminus
    rw [primary.eq_5 l tail hnumber hopening hname]
    refine ⟨[], l, tail, .operand depth, rfl, rfl, rfl, ?_⟩
    obtain ⟨lexeme, offset⟩ := l
    cases lexeme with
    | number a => exact (hnumber a offset rfl).elim
    | opening => exact (hopening offset rfl).elim
    | name text => exact (hname text offset rfl).elim
    | minus => exact absurd ⟨offset, tail, rfl⟩ hminus
    | _ => rfl

/-- Whether a fault of a formula is where it says, as far as it says so: at a character of
the source, or at the first lexeme that no formula goes on with, or at the end of what could
still become a formula. -/
def Fault.PointsInto (source : String) : Fault → Prop
  | unexpectedCharacter c offset =>
    ∃ front back : String, source = front ++ String.singleton c ++ back ∧
      front.utf8ByteSize = offset
  | unexpectedLexeme offset =>
    ∃ before l after, Placed 0 source.toList (before ++ l :: after) ∧ l.offset = offset ∧
      Viable (before.map Located.lexeme) ∧ ¬Viable (before.map Located.lexeme ++ [l.lexeme])
  | unexpectedEnd => ∃ ls, Placed 0 source.toList ls ∧ Viable (ls.map Located.lexeme) ∧
      ¬Formed .sum (ls.map Located.lexeme)
  | unknownFunction _ | divisionByZero | notFinite => True

theorem not_viable_of_step {lexemes : List Lexeme} {lexeme : Lexeme} {next : Outlook}
    (hrun : (Outlook.operand 0).run lexemes = some next) (hstep : next.step lexeme = none) :
    ¬Viable (lexemes ++ [lexeme]) := by
  rw [viable_iff_run, Outlook.run_append, hrun, Option.bind_some, Outlook.run_cons, hstep]
  exact fun ⟨_, h⟩ ↦ nomatch h

theorem Fault.Blames.pointsInto {source : String} {ls : List Located} {fault : Fault}
    (hplaced : Placed 0 source.toList ls) (h : fault.Blames (.operand 0) ls) :
    fault.PointsInto source := by
  cases fault with
  | unexpectedLexeme offset =>
    obtain ⟨before, l, after, next, rfl, hl, hrun, hstep⟩ := h
    exact ⟨before, l, after, hplaced, hl, viable_iff_run.mpr ⟨next, hrun⟩,
      not_viable_of_step hrun hstep⟩
  | unexpectedEnd =>
    obtain ⟨next, hrun, hnext⟩ := h
    refine ⟨ls, hplaced, viable_iff_run.mpr ⟨next, hrun⟩, fun hformed ↦ hnext ?_⟩
    exact Option.some_inj.mp (hrun.symm.trans (formed_iff_run.mp hformed))
  | unexpectedCharacter => exact h.elim
  | unknownFunction | divisionByZero | notFinite => trivial

theorem evaluate_error {source : String} {fault : Fault} (h : evaluate source = .error fault) :
    Lexeme.scan 0 source.toList = .error fault ∨
      ∃ ls, Lexeme.scan 0 source.toList = .ok ls ∧ fault.Blames (.operand 0) ls := by
  unfold evaluate at h
  cases hscan : Lexeme.scan 0 source.toList with
  | error fault' =>
    rw [hscan] at h
    cases h
    exact .inl rfl
  | ok ls =>
    rw [hscan] at h
    have htracks := sum_tracks ls 0
    refine .inr ⟨ls, rfl, ?_⟩
    change (sum ls >>= _) = _ at h
    cases hsum : sum ls with
    | error fault' =>
      rw [hsum] at h htracks
      cases h
      exact htracks
    | ok reading =>
      obtain ⟨value, rest, hrest⟩ := reading
      rw [hsum] at h htracks
      obtain ⟨hend, used, rfl, hused⟩ := htracks
      cases rest with
      | nil =>
        change (if value.isFinite then .ok value else .error Fault.notFinite) =
          Except.error fault at h
        split at h <;> cases h
        exact trivial
      | cons l rest =>
        cases h
        exact ⟨used, l, rest, _, rfl, rfl, hused,
          Outlook.step_operator_other (hend l rfl) fun _ ↦ rfl⟩

/-- Whatever is wrong with how a formula is written is reported where it is wrong. -/
theorem evaluate_error_pointsInto {source : String} {fault : Fault}
    (h : evaluate source = .error fault) :
    fault.PointsInto source := by
  obtain hscan | ⟨ls, hscan, hblames⟩ := evaluate_error h
  · obtain ⟨front, c, back, hsource, rfl⟩ := Lexeme.scan_error hscan
    refine ⟨String.ofList front, String.ofList back, ?_, (Nat.zero_add _).symm⟩
    calc source = String.ofList source.toList := String.ofList_toList.symm
      _ = String.ofList front ++ (String.singleton c ++ String.ofList back) := by
        rw [hsource, String.ofList_append, String.ofList_cons]
      _ = String.ofList front ++ String.singleton c ++ String.ofList back :=
        (String.append_assoc ..).symm
  · exact hblames.pointsInto (Lexeme.placed_of_scan hscan)

theorem evaluate_error_pointsInto_unwritten :
    (evaluate "1 2" = .error (.unexpectedLexeme 2) ∧ (Fault.unexpectedLexeme 2).PointsInto "1 2") ∧
    (evaluate "(1 -" = .error .unexpectedEnd ∧ Fault.unexpectedEnd.PointsInto "(1 -") ∧
    evaluate "2 * é" = .error (.unexpectedCharacter 'é' 4) ∧
      (Fault.unexpectedCharacter 'é' 4).PointsInto "2 * é" := by
  have hfaults : evaluate "1 2" = .error (.unexpectedLexeme 2) ∧
      evaluate "(1 -" = .error .unexpectedEnd ∧
      evaluate "2 * é" = .error (.unexpectedCharacter 'é' 4) := by
    simp [evaluate, Lexeme.scan, Lexeme.isBlank, Lexeme.sign?, Lexeme.isNumeric,
      Lexeme.numberValue?, sum, sumFrom, product, productFrom, negation, power, powerFrom, primary,
      bind, Except.bind, pure, Except.pure, throw, throwThe, MonadExceptOf.throw]
  obtain ⟨hlexeme, hend, hcharacter⟩ := hfaults
  exact ⟨⟨hlexeme, evaluate_error_pointsInto hlexeme⟩, ⟨hend, evaluate_error_pointsInto hend⟩,
    hcharacter, evaluate_error_pointsInto hcharacter⟩

end Rendition.Formula
