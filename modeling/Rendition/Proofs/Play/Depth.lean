import Rendition.Play.Player
import Rendition.Proofs.Play.Modest

namespace Rendition

namespace Symbol

theorem contentDepth_le {symbols : List Symbol} {n : Nat} : contentDepth symbols ≤ n ↔
    ∀ s ∈ symbols, s.depth ≤ n := by
  induction symbols with
  | nil => simp [contentDepth]
  | cons symbol rest ih => rw [contentDepth, Nat.max_le, ih, List.forall_mem_cons]

theorem depth_le_contentDepth {symbol : Symbol} {symbols : List Symbol} (h : symbol ∈ symbols) :
    symbol.depth ≤ contentDepth symbols :=
  contentDepth_le.mp (Nat.le_refl _) symbol h

theorem argument_depth_le {argument : Argument} {arguments : List Argument}
    (h : argument ∈ arguments) :
    argument.depth ≤ argumentsDepth arguments := by
  induction arguments with
  | nil => cases h
  | cons a rest ih =>
    rw [argumentsDepth]
    cases h with
    | head => exact Nat.le_max_left _ _
    | tail _ h => exact Nat.le_trans (ih h) (Nat.le_max_right _ _)

end Symbol

namespace Repetition

theorem mem_pass {number : Nat} {playing : Bool} {ordered : List (Symbol × Option (List Nat))}
    {symbol : Symbol} (h : symbol ∈ pass number playing ordered) :
    symbol ∈ ordered.map Prod.fst := by
  induction ordered generalizing playing with
  | nil => cases h
  | cons entry rest ih =>
    rw [List.map_cons, List.mem_cons]
    have hrest : ∀ {p : Bool}, symbol ∈ entry.1 :: pass number p rest → symbol = entry.1 ∨
        symbol ∈ rest.map Prod.fst :=
      fun hmem ↦ (List.mem_cons.mp hmem).imp_right ih
    obtain ⟨first, order⟩ := entry
    cases order with
    | none =>
      rw [pass] at h
      split at h
      · exact hrest h
      · exact .inr (ih h)
    | some order =>
      rw [pass] at h
      split at h
      · exact hrest h
      · exact .inr (ih h)

theorem mem_body {content : List Symbol} {times : Int} {symbol : Symbol}
    (h : symbol ∈ body content times) :
    symbol ∈ content ∨ symbol = plainBar := by
  unfold body at h
  split at h
  · simpa using h
  · exact .inl h

theorem mem_copies {n : Nat} {content : List Symbol} {symbol : Symbol}
    (h : symbol ∈ copies n content) :
    symbol ∈ content := by
  unfold copies at h
  split at h
  · cases h
  · obtain ⟨copy, hcopy, hmem⟩ := List.mem_flatten.mp h
    rwa [List.eq_of_mem_replicate hcopy] at hmem

theorem mem_unfold {content : List Symbol} {times : Int} {symbol : Symbol}
    (h : symbol ∈ (unfold content times).1) :
    symbol ∈ content ∨ symbol = plainBar := by
  unfold unfold at h
  split at h
  · obtain ⟨number, -, hmem⟩ := List.mem_flatMap.mp h
    obtain hpass | hbar := List.mem_append.mp hmem
    · obtain ⟨entry, hentry, rfl⟩ := List.mem_map.mp (mem_pass hpass)
      exact .inl (List.of_mem_zip hentry).1
    · exact .inr (List.mem_singleton.mp hbar)
  · unfold withCoda at h
    dsimp only at h
    split at h
    · obtain hcopies | htake := List.mem_append.mp h
      · exact mem_body (mem_copies hcopies)
      · exact mem_body (List.mem_of_mem_take htake)
    · exact mem_body (mem_copies h)

theorem finding_of_mem_unfold {content : List Symbol} {times : Int} {r : Remark}
    (h : r ∈ (unfold content times).2) :
    r.finding = .unexpectedCoda ∨ r.finding = .multiCoda ∨ ∃ order, r.finding =
      .unexpectedVolta order := by
  unfold unfold at h
  split at h
  · obtain ⟨index, -, rfl⟩ := List.mem_map.mp h
    exact .inl rfl
  · obtain hvolta | hcoda := List.mem_append.mp h
    · obtain ⟨symbol, -, hr⟩ := List.mem_filterMap.mp hvolta
      obtain ⟨order, -, rfl⟩ := Option.map_eq_some_iff.mp hr
      exact .inr (.inr ⟨order, rfl⟩)
    · obtain ⟨index, -, rfl⟩ := List.mem_map.mp hcoda
      exact .inr (.inl rfl)

theorem contentDepth_unfold (content : List Symbol) (times : Int) :
    Symbol.contentDepth (unfold content times).1 ≤ Symbol.contentDepth content := by
  refine Symbol.contentDepth_le.mpr ?_
  intro symbol h
  obtain h | rfl := mem_unfold h
  · exact Symbol.depth_le_contentDepth h
  · exact Nat.zero_le _

end Repetition

theorem Phrase.finding_of_mem_written {phrase : Phrase} {r : Remark} (h : r ∈ phrase.written.2) :
    r.finding = .unexpectedCoda ∨ r.finding = .multiCoda ∨ ∃ order, r.finding =
      .unexpectedVolta order := by
  unfold written at h
  split at h
  · cases h
  · exact Repetition.finding_of_mem_unfold h

theorem Phrase.contentDepth_written (phrase : Phrase) :
    Symbol.contentDepth phrase.written.1 ≤ Symbol.contentDepth phrase.content := by
  unfold written
  split
  · exact Nat.le_refl _
  · exact Repetition.contentDepth_unfold _ _

namespace Value

theorem getElem?_mapM {arguments : List Argument} {values : List Value}
    (h : arguments.mapM ofArgument = .ok values) {position : Nat} {value : Value}
    (hv : values[position]? = some value) :
    ∃ argument, arguments[position]? = some argument ∧ ofArgument argument = .ok value := by
  induction arguments generalizing values position with
  | nil =>
    cases h
    cases hv
  | cons argument rest ih =>
    rw [List.mapM_cons] at h
    cases ha : ofArgument argument with
    | error e => rw [ha] at h; cases h
    | ok first =>
      cases hrest : rest.mapM ofArgument with
      | error e => rw [ha, hrest] at h; cases h
      | ok others =>
        rw [ha, hrest] at h
        obtain rfl : first :: others = values := Except.ok.inj h
        cases position with
        | zero =>
          obtain rfl : first = value := Option.some.inj hv
          exact ⟨argument, rfl, ha⟩
        | succ position => exact ih hrest hv

theorem mem_mapM {arguments : List Argument} {values : List Value}
    (h : arguments.mapM ofArgument = .ok values) {value : Value} (hv : value ∈ values) :
    ∃ argument ∈ arguments, ofArgument argument = .ok value := by
  obtain ⟨position, hposition⟩ := List.mem_iff_getElem?.mp hv
  obtain ⟨argument, hget, ha⟩ := getElem?_mapM h hposition
  exact ⟨argument, List.mem_of_getElem? hget, ha⟩

theorem formula_of_error {argument : Argument} {source : String} {fault : Formula.Fault}
    (h : ofArgument argument = .error (source, fault)) :
    argument = .formula source ∧ Formula.evaluate source = .error fault := by
  cases argument with
  | number | text | numbers => cases h
  | symbol symbol => cases symbol <;> cases h
  | formula source' =>
    rw [ofArgument] at h
    cases he : Formula.evaluate source' with
    | ok value => rw [he] at h; cases h
    | error fault' =>
      rw [he] at h
      cases h
      exact ⟨rfl, he⟩

theorem symbol_of_phrase? {argument : Argument} {value : Value} {phrase : Phrase}
    (ha : ofArgument argument = .ok value) (hp : value.phrase? = some phrase) :
    ∃ symbol, argument = .symbol symbol ∧
      (phrase.content = [symbol] ∨ symbol = .phrase phrase.times phrase.content) := by
  cases argument with
  | number | text | numbers =>
    cases ha
    cases hp
  | formula source =>
    rw [ofArgument] at ha
    cases he : Formula.evaluate source with
    | error fault => rw [he] at ha; cases ha
    | ok number =>
      rw [he] at ha
      cases ha
      cases hp
  | symbol symbol =>
    refine ⟨symbol, rfl, ?_⟩
    cases symbol <;> cases ha <;> cases hp <;> first | exact .inl rfl | exact .inr rfl

theorem contentDepth_lt_argument {argument : Argument} {value : Value} {phrase : Phrase}
    (ha : ofArgument argument = .ok value) (hp : value.phrase? = some phrase) :
    Symbol.contentDepth phrase.content < 1 + argument.depth := by
  obtain ⟨symbol, rfl, hcontent | rfl⟩ := symbol_of_phrase? ha hp
  · rw [hcontent]
    simp only [Argument.depth, Symbol.contentDepth]
    omega
  · simp only [Argument.depth, Symbol.depth]
    omega

theorem contentDepth_lt {arguments : List Argument} {values : List Value}
    (h : arguments.mapM ofArgument = .ok values) {phrase : Phrase}
    (hp : phrase ∈ Script.phrasesOf values) (name : String) :
    Symbol.contentDepth phrase.content < (Symbol.call name arguments).depth := by
  obtain ⟨value, hv, hphrase⟩ := List.mem_filterMap.mp hp
  obtain ⟨argument, hmem, ha⟩ := mem_mapM h hv
  have := contentDepth_lt_argument ha hphrase
  have := Symbol.argument_depth_le hmem
  rw [Symbol.depth]
  omega

end Value

theorem totalDepth_cons (theme : String × List Symbol) (themes : List (String × List Symbol)) :
    totalDepth (theme :: themes) = Symbol.contentDepth theme.2 + 1 + totalDepth themes := rfl

theorem totalDepth_append (themes themes' : List (String × List Symbol)) :
    totalDepth (themes ++ themes') = totalDepth themes + totalDepth themes' := by
  induction themes with
  | nil => exact (Nat.zero_add _).symm
  | cons theme themes ih =>
    rw [List.cons_append, totalDepth_cons, totalDepth_cons, ih, ← Nat.add_assoc]

section Filter

variable {p q : String × List Symbol → Bool}

theorem totalDepth_filter_le (h : ∀ theme, q theme → p theme)
    (themes : List (String × List Symbol)) :
    totalDepth (themes.filter q) ≤ totalDepth (themes.filter p) := by
  induction themes with
  | nil => exact Nat.le_refl _
  | cons theme themes ih =>
    rw [List.filter_cons, List.filter_cons]
    split
    next hq =>
      rw [if_pos (h theme hq), totalDepth_cons, totalDepth_cons]
      exact Nat.add_le_add_left ih _
    next =>
      split
      · rw [totalDepth_cons]
        exact Nat.le_trans ih (Nat.le_add_left _ _)
      · exact ih

theorem totalDepth_filter_lt (h : ∀ theme, q theme → p theme) {theme : String × List Symbol}
    {themes : List (String × List Symbol)} (hmem : theme ∈ themes) (hp : p theme = true)
    (hq : q theme = false) :
    totalDepth (themes.filter q) + (Symbol.contentDepth theme.2 + 1) ≤
      totalDepth (themes.filter p) := by
  obtain ⟨before, after, rfl⟩ := List.append_of_mem hmem
  have hbefore := totalDepth_filter_le h before
  have hafter := totalDepth_filter_le h after
  rw [List.filter_append, List.filter_append,
    List.filter_cons_of_neg (by rw [hq]; exact Bool.false_ne_true), List.filter_cons_of_pos hp,
    totalDepth_append, totalDepth_append, totalDepth_cons]
  omega

end Filter

theorem Table.mem_of_find? {κ α : Type} [DecidableEq κ] {t : Table κ α} {k : κ} {v : α}
    (h : t.find? k = some v) :
    (k, v) ∈ t.entries := by
  have hlookup : ∀ entries : List (κ × α), lookup k entries = some v → (k, v) ∈ entries := by
    intro entries
    induction entries with
    | nil => exact nofun
    | cons entry rest ih =>
      intro h
      rw [lookup] at h
      split at h
      next hk =>
        obtain rfl := Option.some.inj h
        exact hk ▸ List.mem_cons_self
      next => exact List.mem_cons_of_mem _ (ih h)
  exact hlookup t.entries h

namespace Repertoire

/-- How deep the themes may still lie inside one another that are not being played. -/
def themeDepth (r : Repertoire) (active : List String) : Nat :=
  totalDepth (r.themes.entries.filter (·.1 ∉ active))

theorem themeDepth_le (r : Repertoire) (active : List String) :
    r.themeDepth active ≤ totalDepth r.themes.entries := by
  have hall : ∀ theme : String × List Symbol, decide (theme.1 ∉ active) → (fun _ ↦ true) theme :=
    fun _ _ ↦ rfl
  have hle := totalDepth_filter_le hall r.themes.entries
  rwa [List.filter_eq_self.mpr fun _ _ ↦ rfl] at hle

theorem themeDepth_append (r : Repertoire) {active : List String} {name : String}
    {content : List Symbol} (hc : r.themes.find? name = some content) (ha : name ∉ active) :
    r.themeDepth (active ++ [name]) + (Symbol.contentDepth content + 1) ≤ r.themeDepth active := by
  refine totalDepth_filter_lt (fun theme h ↦ ?_) (Table.mem_of_find? hc)
    (by simpa using ha) (by simp)
  simp only [List.mem_append, not_or, decide_eq_true_eq] at h ⊢
  exact h.1

end Repertoire

end Rendition
