import Rendition.Formula.Lexeme

namespace Rendition.Formula

/-- The characters that a lexeme is written with. -/
inductive Spells : Lexeme → List Char → Prop
  | number {run : List Char} {value : Float} (hrun : ∀ c ∈ run, Lexeme.isNumeric c)
      (hv : Lexeme.numberValue? run = some value) : Spells (.number value) run
  | name {first : Char} {more : List Char} (hfirst : first.isAlpha) (hmore : ∀ c ∈ more,
      c.isAlphanum) :
      Spells (.name (String.ofList (first :: more))) (first :: more)
  | plus : Spells .plus ['+']
  | minus : Spells .minus ['-']
  | times : Spells .times ['*']
  | divide : Spells .over ['/']
  | power : Spells .power ['^']
  | opening : Spells .opening ['(']
  | closing : Spells .closing [')']

def Lexeme.extendsTo : Lexeme → Char → Bool
  | .number _, c => isNumeric c
  | .name _, c => c.isAlphanum
  | _, _ => false

/-- A text is a sequence of lexemes, numbers and names as long as they can be, with blanks before,
between and after them. -/
inductive Written : List Char → List Lexeme → Prop
  | nil : Written [] []
  | blank {c : Char} {cs : List Char} {lexemes : List Lexeme} (hc : Lexeme.isBlank c)
      (h : Written cs lexemes) :
      Written (c :: cs) lexemes
  | lexeme {lexeme : Lexeme} {word rest : List Char} {lexemes : List Lexeme}
      (hl : Spells lexeme word) (hend : ∀ c ∈ rest.head?, lexeme.extendsTo c = false)
      (h : Written rest lexemes) :
      Written (word ++ rest) (lexeme :: lexemes)

/-- As `Written`, with the UTF-8 offset of each lexeme in a text that begins at `offset`. -/
inductive Placed : (offset : Nat) → List Char → List Located → Prop
  | nil {offset : Nat} : Placed offset [] []
  | blank {offset : Nat} {c : Char} {cs : List Char} {ls : List Located} (hc : Lexeme.isBlank c)
      (h : Placed (offset + c.utf8Size) cs ls) : Placed offset (c :: cs) ls
  | lexeme {offset : Nat} {lexeme : Lexeme} {word rest : List Char} {ls : List Located}
      (hl : Spells lexeme word) (hend : ∀ c ∈ rest.head?, lexeme.extendsTo c = false)
      (h : Placed (offset + (String.ofList word).utf8ByteSize) rest ls) :
      Placed offset (word ++ rest) (⟨lexeme, offset⟩ :: ls)

theorem Placed.written {offset : Nat} {cs : List Char} {ls : List Located}
    (h : Placed offset cs ls) :
    Written cs (ls.map Located.lexeme) := by
  induction h with
  | nil => exact .nil
  | blank hc _ ih => exact .blank hc ih
  | lexeme hl hend _ ih => exact .lexeme hl hend ih

namespace Lexeme

theorem spells_sign {c : Char} {lexeme : Lexeme} (h : sign? c = some lexeme) :
    Spells lexeme [c] ∧ ∀ c', lexeme.extendsTo c' = false := by
  unfold sign? at h
  split at h <;> cases h
  · exact ⟨.plus, fun _ ↦ rfl⟩
  · exact ⟨.minus, fun _ ↦ rfl⟩
  · exact ⟨.times, fun _ ↦ rfl⟩
  · exact ⟨.divide, fun _ ↦ rfl⟩
  · exact ⟨.power, fun _ ↦ rfl⟩
  · exact ⟨.opening, fun _ ↦ rfl⟩
  · exact ⟨.closing, fun _ ↦ rfl⟩

theorem not_sign {c : Char} (h : isNumeric c ∨ c.isAlpha) : isBlank c = false ∧ sign? c = none := by
  constructor
  · rw [Bool.eq_false_iff]
    intro hblank
    simp only [isBlank, Bool.or_eq_true, decide_eq_true_eq] at hblank
    obtain rfl | rfl := hblank <;> exact absurd h (by decide)
  · unfold sign?
    split
    case h_8 => rfl
    all_goals exact absurd h (by decide)

theorem not_numeric {c : Char} (h : c.isAlpha) : isNumeric c = false := by
  rw [Bool.eq_false_iff]
  intro hnumeric
  simp only [isNumeric, Char.isDigit, Bool.or_eq_true, Bool.and_eq_true,
    decide_eq_true_eq] at hnumeric
  have hletter : 65 ≤ c.val.toNat := by
    obtain hupper | hlower := (Bool.or_eq_true c.isUpper c.isLower).mp h
    · exact (of_decide_eq_true hupper).1
    · have : 97 ≤ c.val.toNat := of_decide_eq_true (Bool.and_eq_true_iff.mp hlower).1
      omega
  obtain ⟨-, hhigh⟩ | rfl := hnumeric
  · have : c.val.toNat ≤ 57 := hhigh
    omega
  · exact absurd h (by decide)

section Runs

variable {p : Char → Bool} {run rest : List Char}

theorem head?_dropWhile (p : Char → Bool) (cs : List Char) :
    ∀ c ∈ (cs.dropWhile p).head?, p c = false := by
  have h := List.head?_dropWhile_not p cs
  cases hc : (cs.dropWhile p).head? with
  | none => exact nofun
  | some c =>
    rw [hc] at h
    rintro _ ⟨⟩
    exact h

theorem takeWhile_run (hrun : ∀ c ∈ run, p c) (hend : ∀ c ∈ rest.head?, p c = false) :
    (run ++ rest).takeWhile p = run ∧ (run ++ rest).dropWhile p = rest := by
  rw [List.takeWhile_append_of_pos hrun, List.dropWhile_append_of_pos hrun]
  cases rest with
  | nil => simp
  | cons c rest => simp [hend c rfl]

end Runs

section Ascii

variable {c : Char} {cs : List Char} {lexeme : Lexeme} {word : List Char}

theorem blank_ascii (h : isBlank c) : c.val ≤ 127 := by
  simp only [isBlank, Bool.or_eq_true, decide_eq_true_eq] at h
  obtain rfl | rfl := h <;> decide

theorem numeric_ascii (h : isNumeric c) : c.val ≤ 127 := by
  simp only [isNumeric, Char.isDigit, Bool.or_eq_true, Bool.and_eq_true, decide_eq_true_eq] at h
  obtain ⟨-, h⟩ | rfl := h
  · exact UInt32.le_trans h (by decide)
  · decide

theorem alphanumeric_ascii (h : c.isAlphanum) : c.val ≤ 127 := by
  obtain halpha | hdigit := (Bool.or_eq_true c.isAlpha c.isDigit).mp h
  · obtain hupper | hlower := (Bool.or_eq_true c.isUpper c.isLower).mp halpha
    · have hle : c.val ≤ 'Z'.val := (of_decide_eq_true hupper).2
      exact UInt32.le_trans hle (by decide)
    · have hle : c.val ≤ 'z'.val := of_decide_eq_true (Bool.and_eq_true_iff.mp hlower).2
      exact UInt32.le_trans hle (by decide)
  · have hle : c.val ≤ '9'.val := of_decide_eq_true (Bool.and_eq_true_iff.mp hdigit).2
    exact UInt32.le_trans hle (by decide)

theorem spells_ascii (h : Spells lexeme word) : ∀ c ∈ word, c.val ≤ 127 := by
  cases h with
  | number hrun => exact fun c hc ↦ numeric_ascii (hrun c hc)
  | name hfirst hmore =>
    refine List.forall_mem_cons.mpr ⟨alphanumeric_ascii ?_,
      fun c hc ↦ alphanumeric_ascii (hmore c hc)⟩
    rw [Char.isAlphanum, hfirst, Bool.true_or]
  | plus | minus | times | divide | power | opening | closing =>
    exact List.forall_mem_singleton.mpr (by decide)

theorem utf8ByteSize_ascii (h : ∀ c ∈ cs, c.val ≤ 127) :
    (String.ofList cs).utf8ByteSize = cs.length := by
  induction cs with
  | nil => rfl
  | cons c cs ih =>
    obtain ⟨hc, hcs⟩ := List.forall_mem_cons.mp h
    rw [String.ofList_cons, String.utf8ByteSize_append, String.utf8ByteSize_singleton, ih hcs,
      Char.utf8Size_eq_one_iff.mpr hc, List.length_cons, Nat.add_comm]

end Ascii

/-- What the scan of a text that begins at `offset` tells of it: all lexemes, or a
character that begins none. -/
def Scanned (offset : Nat) (cs : List Char) : Except Fault (List Located) → Prop
  | .ok ls => Placed offset cs ls
  | .error fault => ∃ front c back, cs = front ++ c :: back ∧
      fault = .unexpectedCharacter c (offset + (String.ofList front).utf8ByteSize)

section Scanned

variable {offset : Nat} {c : Char} {first : Lexeme} {word rest : List Char}
  {r : Except Fault (List Located)}

theorem Scanned.blank (hc : isBlank c) (h : Scanned (offset + 1) rest r) :
    Scanned offset (c :: rest) r := by
  have hsize := Char.utf8Size_eq_one_iff.mpr (blank_ascii hc)
  cases r with
  | ok ls => exact .blank hc (hsize ▸ h)
  | error fault =>
    obtain ⟨front, c', back, rfl, rfl⟩ := h
    refine ⟨c :: front, c', back, rfl, ?_⟩
    rw [String.ofList_cons, String.utf8ByteSize_append, String.utf8ByteSize_singleton, hsize,
      Nat.add_assoc]

theorem Scanned.lexeme (hl : Spells first word) (hend : ∀ c ∈ rest.head?, first.extendsTo c = false)
    {next : Nat} (hnext : next = offset + word.length) (h : Scanned next rest r) :
    Scanned offset (word ++ rest) (do return ⟨first, offset⟩ :: (← r)) := by
  subst hnext
  have hsize := utf8ByteSize_ascii (spells_ascii hl)
  cases r with
  | ok ls => exact .lexeme hl hend (hsize ▸ h)
  | error fault =>
    obtain ⟨front, c', back, rfl, rfl⟩ := h
    refine ⟨word ++ front, c', back, (List.append_assoc _ _ _).symm, ?_⟩
    rw [String.ofList_append, String.utf8ByteSize_append, hsize, Nat.add_assoc]

theorem Scanned.stopped (c : Char) (rest : List Char) :
    Scanned offset (c :: rest) (.error (.unexpectedCharacter c offset)) := ⟨[], c, rest, rfl, rfl⟩

end Scanned

/-- By induction on the scan, which cuts off a blank or a lexeme at each step. -/
theorem scanned (offset : Nat) (cs : List Char) : Scanned offset cs (scan offset cs) := by
  have hnext {offset : Nat} {c : Char} (run : List Char) :
      offset + 1 + run.length = offset + (c :: run).length := by
    rw [List.length_cons, Nat.add_assoc, Nat.add_comm 1]
  fun_induction scan offset cs with
  | case1 => exact .nil
  | case2 offset c rest hblank ih => exact .blank hblank ih
  | case3 offset c rest hblank sign hsign ih =>
    obtain ⟨hspells, hend⟩ := spells_sign hsign
    exact Scanned.lexeme hspells (fun c' _ ↦ hend c') rfl ih
  | case4 offset c rest hblank hsign hnumeric value hv ih =>
    have hrun : ∀ c' ∈ c :: rest.takeWhile isNumeric, isNumeric c' :=
      List.forall_mem_cons.mpr ⟨hnumeric, List.all_eq_true.mp List.all_takeWhile⟩
    have hscanned := Scanned.lexeme (.number hrun hv) (head?_dropWhile isNumeric rest) (hnext _) ih
    rwa [List.cons_append, List.takeWhile_append_dropWhile] at hscanned
  | case5 offset c rest => exact .stopped c rest
  | case6 offset c rest hblank hsign hnumeric halpha ih =>
    have hmore : ∀ c' ∈ rest.takeWhile Char.isAlphanum, c'.isAlphanum :=
      List.all_eq_true.mp List.all_takeWhile
    have hscanned := Scanned.lexeme (.name halpha hmore) (head?_dropWhile Char.isAlphanum rest)
      (hnext _) ih
    rwa [List.cons_append, List.takeWhile_append_dropWhile] at hscanned
  | case7 offset c rest => exact .stopped c rest

theorem placed_of_scan {offset : Nat} {cs : List Char} {ls : List Located}
    (h : scan offset cs = .ok ls) :
    Placed offset cs ls := by
  have hscanned := scanned offset cs
  rwa [h] at hscanned

theorem scan_error {offset : Nat} {cs : List Char} {fault : Fault}
    (h : scan offset cs = .error fault) :
    ∃ front c back, cs = front ++ c :: back ∧
      fault = .unexpectedCharacter c (offset + (String.ofList front).utf8ByteSize) := by
  have hscanned := scanned offset cs
  rwa [h] at hscanned

theorem scan_blank {c : Char} (h : isBlank c) (offset : Nat) (rest : List Char) :
    scan offset (c :: rest) = scan (offset + 1) rest := by
  rw [scan, if_pos h]

theorem scan_append {lexeme : Lexeme} {word rest : List Char} (hl : Spells lexeme word)
    (hend : ∀ c ∈ rest.head?, lexeme.extendsTo c = false) (offset : Nat) :
    scan offset (word ++ rest) = (scan (offset + word.length) rest).map
      (⟨lexeme, offset⟩ :: ·) := by
  have hmap (s : Except Fault (List Located)) (l : Located) :
      (do return l :: (← s)) = s.map (l :: ·) := by
    cases s <;> rfl
  cases hl with
  | number hrun hv =>
    cases word with
    | nil => cases hv
    | cons c more =>
      obtain ⟨hc, hmore⟩ := List.forall_mem_cons.mp hrun
      obtain ⟨hblank, hsign⟩ := not_sign (.inl hc)
      obtain ⟨htake, hdrop⟩ := takeWhile_run hmore hend
      rw [List.cons_append, scan, if_neg (ne_true_of_eq_false hblank), hsign]
      simp only [htake, hdrop, hc, if_true, hv, hmap, List.length_cons]
      rw [Nat.add_assoc, Nat.add_comm 1]
  | @name c more hc hmore =>
    obtain ⟨hblank, hsign⟩ := not_sign (.inr hc)
    obtain ⟨htake, hdrop⟩ := takeWhile_run hmore hend
    rw [List.cons_append, scan, if_neg (ne_true_of_eq_false hblank), hsign]
    simp only [not_numeric hc, Bool.false_eq_true, if_false, htake, hdrop, hc, if_true, hmap,
      List.length_cons]
    rw [Nat.add_assoc, Nat.add_comm 1]
  | plus | minus | times | divide | power | opening | closing =>
    rw [List.singleton_append, scan, if_neg (by decide)]
    exact hmap _ _

theorem scan_of_written {cs : List Char} {lexemes : List Lexeme} (h : Written cs lexemes)
    (offset : Nat) :
    ∃ ls, scan offset cs = .ok ls ∧ ls.map Located.lexeme = lexemes := by
  induction h generalizing offset with
  | nil => exact ⟨[], by rw [scan], rfl⟩
  | blank hc _ ih =>
    rw [scan_blank hc]
    exact ih (offset + 1)
  | @lexeme lexeme word rest lexemes hl hend _ ih =>
    obtain ⟨ls, hscan, rfl⟩ := ih (offset + word.length)
    rw [scan_append hl hend, hscan]
    exact ⟨_, rfl, rfl⟩

end Lexeme

end Rendition.Formula
