import Rendition.Proofs.Sound.Lengths

namespace Rendition

open Number Float.Model.UnpackedFloat

/-- The beats and the seconds of a note in units, if they are finite. -/
def Note.weight (settings : Settings) (note : Note) : Int × Int :=
  match units? (note.timing settings).beat, units? (note.timing settings).nominal with
  | some beats, some time => (beats, time)
  | _, _ => (0, 0)

namespace Note

variable {settings : Settings} {note : Note}

theorem weight_time (h : (note.weight settings).1 = 0) : (note.weight settings).2 = 0 := by
  unfold weight at *
  split at h
  next beats time hb ht =>
    obtain rfl : beats = 0 := h
    exact nominal_eq_zero hb ht
  next => rfl

theorem weight_signed {s : Sign} (hs : HasSign s (note.timing settings).beat) :
    0 ≤ s.apply (note.weight settings).1 := by
  unfold weight
  split
  next beats time hb ht => exact hs.units_nonneg hb
  next => cases s <;> exact Int.le_refl _

end Note

def Symbol.hasBeats (settings : Settings) : Symbol → Bool
  | .note n => (n.weight settings).1 ≠ 0
  | _ => false

theorem Symbol.bar_or_beats_or_silent (settings : Settings) (symbol : Symbol) :
    (∃ bar, symbol = .barLine bar) ∨
    (∃ note : Note, symbol = .note note ∧ (note.weight settings).1 ≠ 0) ∨
    symbol.isBarLine = false ∧ symbol.hasBeats settings = false := by
  cases symbol with
  | barLine bar => exact .inl ⟨bar, rfl⟩
  | note note =>
    by_cases h : (note.weight settings).1 = 0
    · exact .inr (.inr ⟨rfl, decide_eq_false (not_not.mpr h)⟩)
    · exact .inr (.inl ⟨note, rfl, h⟩)
  | _ => exact .inr (.inr ⟨rfl, rfl⟩)

/-- What the notes and bar lines of a passage add up to. -/
structure Bars where
  /-- The beats of each closed bar, and the time at which it ended. -/
  closed : List (Int × Int) := []
  beats : Int := 0
  time : Int := 0
  deriving DecidableEq, Repr

namespace Bars

def close (b : Bars) : Bars :=
  if b.beats = 0 then b else { b with closed := b.closed ++ [(b.beats, b.time)], beats := 0 }

def later (time : Int) (closed : List (Int × Int)) : List (Int × Int) :=
  closed.map fun bar ↦ (bar.1, bar.2 + time)

/-- The bars of a passage once it has taken in an inner one, whose first bar joins the open one. -/
def join (b inner : Bars) : Bars :=
  match inner.closed with
  | [] => { b with beats := b.beats + inner.beats, time := b.time + inner.time }
  | bar :: rest =>
    { closed := b.closed ++ (b.beats + bar.1, b.time + bar.2) :: later b.time rest
      beats := inner.beats
      time := b.time + inner.time }

/-- The bars of a passage once an inner one has followed on a bar line. -/
def follow (b inner : Bars) : Bars where
  closed := b.closed ++ later b.time inner.closed
  beats := inner.beats
  time := b.time + inner.time

def Voiced (b : Bars) : Prop := b.closed ≠ [] ∨ b.beats ≠ 0

variable (settings : Settings)

def add (b : Bars) : Symbol → Bars
  | .note note =>
    { b with
      beats := b.beats + (note.weight settings).1
      time := b.time + (note.weight settings).2 }
  | .barLine _ => b.close
  | _ => b

def addAll (b : Bars) (symbols : List Symbol) : Bars := symbols.foldl (add settings) b

def startsWithBar (symbols : List Symbol) : Bool :=
  (symbols.find? fun symbol ↦ symbol.isBarLine || symbol.hasBeats settings).any Symbol.isBarLine

def leavesOpen (symbols : List Symbol) : Bool :=
  (symbols.reverse.find? fun symbol ↦ symbol.isBarLine || symbol.hasBeats settings).any
    (Symbol.hasBeats settings)

variable {settings} {s : Sign} {b n : Bars} {symbol : Symbol} {symbols : List Symbol}

@[simp] theorem close_beats (b : Bars) : b.close.beats = 0 := by
  unfold close
  split <;> first | assumption | rfl

@[simp] theorem close_time (b : Bars) : b.close.time = b.time := by
  unfold close
  split <;> rfl

theorem close_of_eq_zero (h : b.beats = 0) : b.close = b := if_pos h

theorem close_closed_of_ne (h : b.beats ≠ 0) :
    b.close.closed = b.closed ++ [(b.beats, b.time)] := by
  rw [close, if_neg h]

theorem close_closed_ne_nil : b.close.closed ≠ [] ↔ b.Voiced := by
  unfold close Voiced
  split <;> simp [*]

@[simp] theorem later_nil (time : Int) : later time [] = [] := rfl

@[simp] theorem length_later (time : Int) (closed : List (Int × Int)) :
    (later time closed).length = closed.length :=
  List.length_map _

theorem join_nil (b : Bars) : b.join {} = b := by
  simp [join]

theorem follow_nil (h : b.beats = 0) : b.follow {} = b := by
  obtain ⟨closed, beats, time⟩ := b
  obtain rfl : beats = 0 := h
  simp [follow]

theorem join_eq_follow (h : b.beats = 0) (n : Bars) : b.join n = b.follow n := by
  obtain ⟨closed, beats, time⟩ := n
  cases closed with
  | nil => simp [join, follow, h]
  | cons bar rest => simp [join, follow, h, later, Int.add_comm]

theorem close_follow (b n : Bars) : (b.follow n).close = b.follow n.close := by
  unfold close
  split
  next h =>
    rw [if_pos (show n.beats = 0 from h)]
  next h =>
    rw [if_neg (show n.beats ≠ 0 from h)]
    simp [follow, later, Int.add_comm]

theorem addAll_follow (b n : Bars) (symbols : List Symbol) :
    (b.follow n).addAll settings symbols = b.follow (n.addAll settings symbols) := by
  refine List.foldl_hom (b.follow ·) ?_
  intro n symbol
  cases symbol with
  | note note => simp [add, follow, Int.add_assoc]
  | barLine bar => exact close_follow b n
  | _ => rfl

theorem add_of_silent (h : symbol.isBarLine = false) (h' : symbol.hasBeats settings = false)
    (b : Bars) :
    b.add settings symbol = b := by
  cases symbol with
  | note note =>
    have hbeats : (note.weight settings).1 = 0 := by simpa [Symbol.hasBeats] using h'
    simp [add, hbeats, Note.weight_time hbeats]
  | barLine bar => cases h
  | _ => rfl

def Signed (s : Sign) (b : Bars) : Prop := 0 ≤ s.apply b.beats

theorem Signed.add (hs : ∀ note : Note, HasSign s (note.timing settings).beat) (h : b.Signed s)
    (symbol : Symbol) :
    (b.add settings symbol).Signed s := by
  cases symbol with
  | note note =>
    have hw := Note.weight_signed (hs note)
    unfold Signed at *
    cases s <;> simp only [Bars.add, Sign.apply] at * <;> omega
  | barLine bar =>
    change 0 ≤ s.apply b.close.beats
    rw [close_beats]
    cases s <;> exact Int.le_refl _
  | _ => exact h

theorem Signed.add_ne_zero {beats : Int} (h : b.Signed s) (hs : 0 ≤ s.apply beats)
    (hne : b.beats ≠ 0 ∨ beats ≠ 0) :
    b.beats + beats ≠ 0 := by
  unfold Signed at h
  cases s <;> simp only [Sign.apply] at * <;> omega

theorem Voiced.add (hs : ∀ note : Note, HasSign s (note.timing settings).beat) (h : b.Signed s)
    (hv : b.Voiced) (symbol : Symbol) : (b.add settings symbol).Voiced := by
  cases symbol with
  | note note =>
    exact hv.imp_right fun hne ↦ h.add_ne_zero (Note.weight_signed (hs note)) (.inl hne)
  | barLine bar => exact .inl (close_closed_ne_nil.mpr hv)
  | _ => exact hv

theorem add_join (hb : b.Signed s) (hn : n.Signed s) (hv : n.Voiced) (symbol : Symbol) :
    (b.join n).add settings symbol = b.join (n.add settings symbol) := by
  obtain ⟨closed, beats, time⟩ := n
  cases closed with
  | nil =>
    have hne : beats ≠ 0 := hv.resolve_left (absurd rfl)
    cases symbol with
    | note note => simp [add, join, Int.add_assoc]
    | barLine bar =>
      have hsum : b.beats + beats ≠ 0 := hb.add_ne_zero hn (.inr hne)
      simp [add, join, close, hne, hsum, later]
    | _ => rfl
  | cons bar rest =>
    cases symbol with
    | note note => simp [add, join, Int.add_assoc]
    | barLine line =>
      by_cases hz : beats = 0
      · simp [add, join, close, hz]
      · simp [add, join, close, hz, later, Int.add_comm]
    | _ => rfl

theorem addAll_join (hs : ∀ note : Note, HasSign s (note.timing settings).beat) (hb : b.Signed s)
    (hn : n.Signed s) (hv : n.Voiced) (symbols : List Symbol) :
    (b.join n).addAll settings symbols = b.join (n.addAll settings symbols) := by
  induction symbols generalizing n with
  | nil => rfl
  | cons symbol rest ih =>
    change ((b.join n).add settings symbol).addAll settings rest = _
    rw [add_join hb hn hv]
    exact ih (hn.add hs symbol) (hv.add hs hn symbol)

theorem signed_nil (s : Sign) : Signed s {} := by
  cases s <;> exact Int.le_refl _

theorem Signed.addAll (hs : ∀ note : Note, HasSign s (note.timing settings).beat) (h : b.Signed s)
    (symbols : List Symbol) : (b.addAll settings symbols).Signed s := by
  induction symbols generalizing b with
  | nil => exact h
  | cons symbol rest ih => exact ih (h.add hs symbol)

theorem addAll_cons (b : Bars) (symbol : Symbol) (symbols : List Symbol) :
    b.addAll settings (symbol :: symbols) = (b.add settings symbol).addAll settings symbols := rfl

theorem addAll_append (b : Bars) (xs ys : List Symbol) :
    b.addAll settings (xs ++ ys) = (b.addAll settings xs).addAll settings ys := List.foldl_append

/-- Symbols go on with the open bar in the same way as an inner passage does, unless a
bar line comes first. -/
theorem addAll_eq (hs : ∀ note : Note, HasSign s (note.timing settings).beat) (hb : b.Signed s)
    (symbols : List Symbol) : b.addAll settings symbols =
      if startsWithBar settings symbols then b.close.follow (addAll settings {} symbols)
      else b.join (addAll settings {} symbols) := by
  induction symbols with
  | nil => exact (join_nil b).symm
  | cons symbol rest ih =>
    rw [addAll_cons, addAll_cons]
    obtain ⟨bar, rfl⟩ | ⟨note, rfl, hne⟩ | ⟨hbar, hbeats⟩ := symbol.bar_or_beats_or_silent settings
    · have hstarts : startsWithBar settings (.barLine bar :: rest) := by
        simp [startsWithBar, Symbol.isBarLine]
      rw [if_pos hstarts]
      change b.close.addAll settings rest = b.close.follow (addAll settings {} rest)
      rw [← addAll_follow, follow_nil (close_beats b)]
    · have hstarts : ¬startsWithBar settings (.note note :: rest) := by
        simp [startsWithBar, Symbol.isBarLine, Symbol.hasBeats, hne]
      have hjoin : b.add settings (.note note) = b.join (add settings {} (.note note)) := by
        simp [add, join]
      have hvoiced : (add settings {} (.note note)).Voiced := .inr (by simpa [add] using hne)
      rw [if_neg hstarts, hjoin, addAll_join hs hb ((signed_nil s).add hs _) hvoiced]
    · have hstarts : startsWithBar settings (symbol :: rest) = startsWithBar settings rest := by
        simp [startsWithBar, hbar, hbeats]
      rw [hstarts, add_of_silent hbar hbeats, add_of_silent hbar hbeats, ih]

theorem beats_addAll_ne_zero (hs : ∀ note : Note, HasSign s (note.timing settings).beat)
    (symbols : List Symbol) :
    (addAll settings {} symbols).beats ≠ 0 ↔ leavesOpen settings symbols := by
  induction symbols using List.reverseRecOn with
  | nil => simp [addAll, leavesOpen]
  | append_singleton symbols symbol ih =>
    rw [addAll_append]
    change ((addAll settings {} symbols).add settings symbol).beats ≠ 0 ↔ _
    obtain ⟨bar, rfl⟩ | ⟨note, rfl, hne⟩ | ⟨hbar, hbeats⟩ := symbol.bar_or_beats_or_silent settings
    · simp [leavesOpen, add, Symbol.isBarLine, Symbol.hasBeats]
    · have hsum : (addAll settings {} symbols).beats + (note.weight settings).1 ≠ 0 :=
        ((signed_nil s).addAll hs symbols).add_ne_zero (Note.weight_signed (hs note)) (.inr hne)
      simp [leavesOpen, add, Symbol.isBarLine, Symbol.hasBeats, hne, hsum]
    · rw [add_of_silent hbar hbeats, ih]
      simp [leavesOpen, hbar, hbeats]

theorem voiced_addAll (hs : ∀ note : Note, HasSign s (note.timing settings).beat)
    (symbols : List Symbol) :
    (addAll settings {} symbols).Voiced ↔ symbols.any (Symbol.hasBeats settings) := by
  induction symbols using List.reverseRecOn with
  | nil => simp [addAll, Voiced]
  | append_singleton symbols symbol ih =>
    rw [addAll_append]
    change ((addAll settings {} symbols).add settings symbol).Voiced ↔ _
    obtain ⟨bar, rfl⟩ | ⟨note, rfl, hne⟩ | ⟨hbar, hbeats⟩ := symbol.bar_or_beats_or_silent settings
    · have hclose : (addAll settings {} symbols).close.Voiced ↔
          (addAll settings {} symbols).Voiced := by
        rw [Voiced, close_closed_ne_nil, close_beats]
        simp
      rw [List.any_append, Bool.or_eq_true, ← ih]
      exact hclose.trans (by simp [Symbol.hasBeats])
    · have hsum : (addAll settings {} symbols).beats + (note.weight settings).1 ≠ 0 :=
        ((signed_nil s).addAll hs symbols).add_ne_zero (Note.weight_signed (hs note)) (.inr hne)
      have hvoiced : ((addAll settings {} symbols).add settings (.note note)).Voiced := .inr hsum
      simp [hvoiced, Symbol.hasBeats, hne]
    · rw [add_of_silent hbar hbeats, ih]
      simp [hbeats]

/-- Whether an inner passage swallows a bar line: one before its first beats, while the bar around
is open. It does no harm if the passage has no beats and a bar line follows. -/
def swallows (settings : Settings) (pre content post : List Symbol) : Bool :=
  leavesOpen settings pre && startsWithBar settings content &&
    (content.any (Symbol.hasBeats settings) || !startsWithBar settings post)

theorem length_closed_follow (b n : Bars) :
    (b.follow n).closed.length = b.closed.length + n.closed.length := by
  simp [follow]

theorem length_closed_join (b n : Bars) :
    (b.join n).closed.length = b.closed.length + n.closed.length := by
  obtain ⟨closed, beats, time⟩ := n
  cases closed <;> simp [join]

theorem length_closed_close (h : b.beats ≠ 0) : b.close.closed.length = b.closed.length + 1 := by
  simp [close_closed_of_ne h]

theorem addAll_of_beats_eq_zero (h : b.beats = 0) (symbols : List Symbol) :
    b.addAll settings symbols = b.follow (addAll settings {} symbols) := by
  rw [← addAll_follow, follow_nil h]

theorem addAll_of_silent (h : symbols.any (Symbol.hasBeats settings) = false) :
    addAll settings {} symbols = {} := by
  induction symbols with
  | nil => rfl
  | cons symbol rest ih =>
    rw [List.any_cons, Bool.or_eq_false_iff] at h
    rw [addAll_cons]
    cases hbar : symbol.isBarLine with
    | true =>
      cases symbol with
      | barLine bar => exact ih h.2
      | _ => cases hbar
    | false =>
      rw [add_of_silent hbar h.1]
      exact ih h.2

theorem beats_addAll_of_getLast? {bar : BarLine} (h : symbols.getLast? = some (.barLine bar)) :
    (b.addAll settings symbols).beats = 0 := by
  obtain ⟨rest, rfl⟩ := List.getLast?_eq_some_iff.mp h
  rw [addAll_append]
  exact close_beats _

theorem length_closed_addAll_join (hb : b.beats ≠ 0) (hn : n.beats = 0) (hne : n.closed ≠ [])
    (post : List Symbol) :
    ((b.join n).addAll settings post).closed.length + 1 =
      ((b.close.follow n).addAll settings post).closed.length := by
  have hjoin : (b.join n).beats = 0 := by
    obtain ⟨closed, beats, time⟩ := n
    cases closed with
    | nil => exact absurd rfl hne
    | cons bar rest => exact hn
  rw [addAll_of_beats_eq_zero hjoin, addAll_of_beats_eq_zero (b := b.close.follow n) hn]
  simp only [length_closed_follow, length_closed_join, length_closed_close hb]
  omega

theorem addAll_close_or (hs : ∀ note : Note, HasSign s (note.timing settings).beat)
    (hb : b.Signed s) (hne : b.beats ≠ 0) (post : List Symbol) :
    if startsWithBar settings post then b.addAll settings post = b.close.addAll settings post
    else (b.addAll settings post).closed.length + 1 =
      (b.close.addAll settings post).closed.length := by
  rw [addAll_eq hs hb post, addAll_of_beats_eq_zero (close_beats b)]
  split
  · rfl
  · simp only [length_closed_follow, length_closed_join, length_closed_close hne]
    omega

theorem addAll_join_or (hs : ∀ note : Note, HasSign s (note.timing settings).beat)
    (pre post : List Symbol) {content : List Symbol} {bar : BarLine}
    (hend : content.getLast? = some (.barLine bar)) :
    if swallows settings pre content post then
      (((addAll settings {} pre).join (addAll settings {} content)).addAll settings
        post).closed.length + 1 = (addAll settings {} (pre ++ content ++ post)).closed.length
    else ((addAll settings {} pre).join (addAll settings {} content)).addAll settings post =
      addAll settings {} (pre ++ content ++ post) := by
  have hb : (addAll settings {} pre).Signed s := (signed_nil s).addAll hs pre
  have hn : (addAll settings {} content).beats = 0 := beats_addAll_of_getLast? hend
  have hleaves := beats_addAll_ne_zero hs pre
  have hvoiced := voiced_addAll hs content
  rw [addAll_append, addAll_append, addAll_eq hs hb content]
  generalize addAll settings {} pre = b at *
  cases hstarts : startsWithBar settings content with
  | false => simp [swallows, hstarts]
  | true =>
    -- With no bar open the bar line closes nothing, in its place or not.
    by_cases hz : b.beats = 0
    · have hclosed : leavesOpen settings pre = false :=
        Bool.eq_false_iff.mpr (hleaves.not.mp (not_not.mpr hz))
      simp [swallows, hclosed, close_of_eq_zero hz, join_eq_follow hz]
    · rw [if_pos rfl]
      cases hbeats : content.any (Symbol.hasBeats settings) with
      | true =>
        have hne : (addAll settings {} content).closed ≠ [] :=
          (hvoiced.mpr hbeats).resolve_right (not_not.mpr hn)
        simpa [swallows, hleaves.mp hz, hstarts, hbeats] using length_closed_addAll_join
          hz hn hne post
      | false =>
        have hpost := addAll_close_or hs hb hz post
        rw [addAll_of_silent hbeats, join_nil, follow_nil (close_beats b)]
        cases hp : startsWithBar settings post <;>
          simpa [swallows, hleaves.mp hz, hstarts, hbeats, hp] using hpost

end Bars

end Rendition
