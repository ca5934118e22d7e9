import Rendition.Proofs.Play.Tracing
import Rendition.Proofs.Script.Validity
import Rendition.Proofs.Sound.Chords

namespace Rendition

namespace Chord

variable {chord? : Char → Option Chord} {chord : Chord} {letter : Char} {letters : List Char}
  {tones last : List Tone} {rule : ChordRule} {findings : List Finding}

theorem exists_violates_nil (letter : Char) (rule : ChordRule) :
    ∃ finding, Violates letter [] rule finding := by
  obtain h | h := lt_or_ge rule.head.toInt 0
  · exact ⟨_, .head (.below h)⟩
  · exact ⟨_, .head (.above h)⟩

theorem Copies.not_reaches (h : Copies tones rule []) (hadmits : Admits letter tones rule) {k : Nat}
    (hk : k < tones.length) : ¬Reaches tones.length rule k := by
  intro hreach
  obtain ⟨copied, hcopy⟩ := admits_iff.mp hadmits
  obtain ⟨head, tail, -, hhead, htail, -⟩ := places_of_copy hcopy
  obtain ⟨hle, hle'⟩ := (reaches_iff hhead htail).mp hreach
  have hlt : ((head : Int) + (0 : Nat)).toNat < tones.length := by omega
  have hfirst := h 0
  rw [hhead, htail, if_pos (by omega), List.getElem?_eq_getElem hlt] at hfirst
  cases hfirst

theorem copies_nil_of_flatten {copies : List (List Tone)}
    (h : List.Forall₂ (Copies tones) chord copies) (hflat : copies.flatten = []) :
    ∀ rule ∈ chord, Copies tones rule [] := by
  induction h with
  | nil => exact nofun
  | cons hcopied _ ih =>
    obtain ⟨rfl, hrest⟩ := List.append_eq_nil_iff.mp hflat
    exact List.forall_mem_cons.mpr ⟨hcopied, ih hrest⟩

theorem Letter.silent_iff (h : Letter chord? letter tones last findings) :
    last = [] ∧ findings = [] ↔ tones = [] ∧ chord? letter = some [] := by
  cases h with
  | unknown h => simp [h]
  | refused h => simp [h]
  | @applied chord copies unused h hall hcopies hunused =>
    rw [h, Option.some.injEq]
    constructor
    · rintro ⟨hflat, hfindings⟩
      have hnone : unused = [] := by
        by_contra hne
        rw [if_neg hne] at hfindings
        cases hfindings
      have hempty := copies_nil_of_flatten hcopies hflat
      have htones : tones = [] := by
        by_contra hne
        have hpos := List.length_pos_iff.mpr hne
        -- The first tone would be unused.
        have hfirst :=
          (hunused 0).mpr ⟨hpos, fun rule hmem ↦
            (hempty rule hmem).not_reaches (hall rule hmem) hpos⟩
        exact List.ne_nil_of_mem hfirst hnone
      subst htones
      refine ⟨rfl, List.eq_nil_iff_forall_not_mem.mpr fun rule hmem ↦ ?_⟩
      obtain ⟨finding, hviolates⟩ := exists_violates_nil letter rule
      exact hall rule hmem finding hviolates
    · rintro ⟨rfl, rfl⟩
      cases hcopies
      have hnone : unused = [] :=
        List.eq_nil_iff_forall_not_mem.mpr fun k hk ↦
          absurd ((hunused k).mp hk).1 (Nat.not_lt_zero k)
      exact ⟨rfl, if_pos hnone⟩

theorem Letters.silent_iff (h : Letters chord? letters tones last findings) :
    last = [] ∧ findings = [] ↔ tones = [] ∧ ∀ letter ∈ letters, chord? letter = some [] := by
  induction h with
  | nil tones => simp
  | @cons letter letters tones next last findings later hletter _ ih =>
    calc last = [] ∧ findings ++ later = []
      _ ↔ findings = [] ∧ last = [] ∧ later = [] := by rw [List.append_eq_nil_iff, and_left_comm]
      _ ↔ (next = [] ∧ findings = []) ∧ ∀ letter ∈ letters, chord? letter = some [] := by
        rw [ih, ← and_assoc, and_comm (a := findings = [])]
      _ ↔ tones = [] ∧ ∀ x ∈ letter :: letters, chord? x = some [] := by
        rw [hletter.silent_iff, List.forall_mem_cons, and_assoc]

end Chord

/-- The steps of the scale that a degree is written in, if it is. -/
def Degree.steps? (names : PitchNames) : Degree → Option (List UInt8)
  | scale step => some [step]
  | named name =>
    match names.find? name with
    | some (.degrees steps) => some steps
    | _ => none
  | _ => none

def Voicing.isEmpty : Voicing → Bool
  | fixed offsets => offsets.isEmpty
  | degrees steps => steps.isEmpty

theorem semitones?_eq_none_iff {step : UInt8} : semitones? step = none ↔ step = 0 ∨ 7 < step := by
  revert step
  decide +kernel

theorem Settings.Valid.key_ne_nil {settings : Settings} (h : settings.Valid) :
    settings.key ≠ [] := by
  intro hkey
  have hcheck := h.key
  rw [hkey] at hcheck
  cases hcheck

namespace WrittenPitch

variable {pitch : WrittenPitch} {context : PitchContext} {base : List Tone}

theorem scaleTone?_eq_none_iff {step : UInt8} : pitch.scaleTone? context step = none ↔
    step = 0 ∨ 7 < step :=
  Option.map_eq_none_iff.trans semitones?_eq_none_iff

theorem hits_ne_nil : pitch.hits context ≠ [] := by
  unfold hits
  rw [Ne, List.map_eq_nil_iff, List.range_eq_nil]
  omega

theorem voices_ne_nil {settings : Settings} (hk : settings.key ≠ []) (tone : Tone) :
    voices settings tone ≠ [] := by
  obtain ⟨sound, hsound, -⟩ := exists_pitched_voice hk tone
  exact List.ne_nil_of_mem hsound

section Read

variable (hrest : pitch.degree ≠ .rest) (hhit : pitch.degree ≠ .unpitched)
include hrest hhit

theorem read_of_error {finding : Finding} (h : pitch.tones context = .error finding) :
    pitch.read context = { findings := [finding] } := by
  unfold read
  split
  next hd => exact absurd hd hrest
  next hd => exact absurd hd hhit
  next => rw [h]

theorem read_of_ok {base : List Tone} (h : pitch.tones context = .ok base) :
    pitch.read context =
      { sounds :=
          (Chord.applyAll context.chords.find? pitch.chords.toList base).1.flatMap
            (voices context.settings)
        tones := (Chord.applyAll context.chords.find? pitch.chords.toList base).1
        findings := (Chord.applyAll context.chords.find? pitch.chords.toList base).2 } := by
  unfold read
  split
  next hd => exact absurd hd hrest
  next hd => exact absurd hd hhit
  next => rw [h]

end Read

/-- Tones sound in some voice, so that only chord letters can silence them, and these remark on
it. -/
theorem read_silent_iff_tones (hk : context.settings.key ≠ []) (hrest : pitch.degree ≠ .rest)
    (hhit : pitch.degree ≠ .unpitched) :
    (pitch.read context).sounds = [] ∧ (pitch.read context).findings = [] ↔
      pitch.tones context = .ok [] ∧
      ∀ letter ∈ pitch.chords.toList, context.chords.find? letter = some [] := by
  cases ht : pitch.tones context with
  | error finding =>
    rw [read_of_error hrest hhit ht]
    refine iff_of_false (fun h ↦ List.cons_ne_nil _ _ h.2) ?_
    rintro ⟨h, -⟩
    cases h
  | ok base =>
    rw [read_of_ok hrest hhit ht]
    dsimp only
    rw [Except.ok.injEq, List.flatMap_eq_nil_iff, ← (Chord.applyAll_eq_iff.mp rfl).silent_iff]
    refine and_congr_left fun _ ↦ ⟨fun hnone ↦ ?_, fun hnone tone hmem ↦ ?_⟩
    · exact List.eq_nil_iff_forall_not_mem.mpr fun tone hmem ↦
        voices_ne_nil hk tone (hnone tone hmem)
    · rw [hnone] at hmem
      cases hmem

theorem ne_nil_of_recalled? (htrace : ∀ entry ∈ context.trace, entry ≠ [])
    (h : recalled? context = .ok base) :
    base ≠ [] := by
  unfold recalled? at h
  dsimp only at h
  split at h
  · cases h
  next hdepth =>
    obtain rfl := Except.ok.inj h
    obtain ⟨hpos, hle⟩ := not_or.mp hdepth
    have hlt : context.trace.length - context.settings.trace < context.trace.length := by omega
    rw [List.getElem?_eq_getElem hlt]
    exact htrace _ (List.getElem_mem hlt)

theorem tones_eq_nil_iff (hrest : pitch.degree ≠ .rest) (hhit : pitch.degree ≠ .unpitched)
    (hnames : ∀ name voicing, context.names.find? name = some voicing → voicing.isEmpty = false)
    (htrace : ∀ entry ∈ context.trace, entry ≠ []) :
    pitch.tones context = .ok [] ↔
      ∃ steps, pitch.degree.steps? context.names = some steps ∧ ∀ step ∈ steps, step = 0 ∨
      7 < step := by
  unfold tones
  cases hd : pitch.degree with
  | rest => exact absurd hd hrest
  | unpitched => exact absurd hd hhit
  | retrace =>
    refine iff_of_false (fun h ↦ ?_) fun ⟨steps, hsteps, _⟩ ↦ nomatch hsteps
    cases hrecalled : recalled? context with
    | error finding =>
      rw [hrecalled] at h
      cases h
    | ok entry =>
      rw [hrecalled] at h
      exact ne_nil_of_recalled? htrace hrecalled (List.map_eq_nil_iff.mp (Except.ok.inj h))
  | scale step => simp [Degree.steps?, scaleTone?_eq_none_iff]
  | named name =>
    cases hfind : context.names.find? name with
    | none => simp [Degree.steps?, hfind]
    | some voicing =>
      cases voicing with
      | fixed offsets =>
        have hentries : offsets ≠ [] := List.isEmpty_eq_false_iff.mp (hnames name _ hfind)
        simp [Degree.steps?, hfind, hentries]
      | degrees steps => simp [Degree.steps?, hfind, scaleTone?_eq_none_iff]

/-- A written pitch sounds, or something is found amiss with it, unless it is written in steps none
of which belongs to the scale. Those are passed over in silence, if no chord letter finds that there
is nothing to work on. -/
theorem read_silent_iff (hvalid : context.settings.check = .ok ()) (hrest : pitch.degree ≠ .rest)
    (hnames : ∀ name voicing, context.names.find? name = some voicing → voicing.isEmpty = false)
    (htrace : ∀ entry ∈ context.trace, entry ≠ []) :
    (pitch.read context).sounds = [] ∧ (pitch.read context).findings = [] ↔
      (∃ steps, pitch.degree.steps? context.names = some steps ∧
        ∀ step ∈ steps, step = 0 ∨ 7 < step) ∧
        ∀ letter ∈ pitch.chords.toList, context.chords.find? letter = some [] := by
  by_cases hhit : pitch.degree = .unpitched
  · refine iff_of_false (fun ⟨hsounds, _⟩ ↦ ?_) fun ⟨⟨steps, hsteps, _⟩, _⟩ ↦ ?_
    · unfold read at hsounds
      rw [hhit] at hsounds
      exact hits_ne_nil hsounds
    · rw [hhit] at hsteps
      cases hsteps
  · have hk := (Settings.check_eq_ok.mp hvalid).key_ne_nil
    rw [read_silent_iff_tones hk hrest hhit, tones_eq_nil_iff hrest hhit hnames htrace]

end WrittenPitch

namespace Octave

def pitch : WrittenPitch := { degree := .named "C" }

def context : PitchContext :=
  { settings := {}, chords := .ofList Chord.standard, names := .ofList [("C", .degrees [8])] }

theorem names_not_empty (name : String) (voicing : Voicing)
    (h : context.names.find? name = some voicing) :
    voicing.isEmpty = false := by
  have hfind : context.names.find? name = if name = "C" then some (.degrees [8]) else none := rfl
  rw [hfind] at h
  split at h
  · cases h
    rfl
  · cases h

end Octave

/-- The eighth step is not heard, and nothing is found amiss. -/
theorem WrittenPitch.read_silent_iff_octave :
    (Octave.pitch.read Octave.context).sounds = [] ∧
    (Octave.pitch.read Octave.context).findings = [] := by
  have hvalid : Octave.context.settings.check = .ok () := by decide +kernel
  have hletters : Octave.pitch.chords.toList = [] := rfl
  refine (read_silent_iff hvalid (by decide) Octave.names_not_empty nofun).mpr ⟨⟨[8], rfl, ?_⟩, ?_⟩
  · exact List.forall_mem_singleton.mpr (.inr (by decide))
  · rw [hletters]
    exact nofun

end Rendition
