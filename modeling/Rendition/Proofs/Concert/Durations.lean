import Rendition.Concert
import Rendition.Proofs.Number.Distance

namespace Rendition

open Number

/-- Some of the durations is below the longest by more than is tolerated. -/
def FallsShort (durations : List Float) (longest : Float) : Prop :=
  ∃ d ∈ durations, SectionPerformance.durationTolerance < longest - d

instance (durations : List Float) (longest : Float) : Decidable (FallsShort durations longest) :=
  inferInstanceAs (Decidable (∃ d ∈ durations, _))

def FallsAtLimit (durations : List Float) (longest : Float) : Prop :=
  ∃ d ∈ durations, longest - d == SectionPerformance.durationTolerance

instance (durations : List Float) (longest : Float) : Decidable (FallsAtLimit durations longest) :=
  inferInstanceAs (Decidable (∃ d ∈ durations, _))

structure Longest (durations : List Float) (longest : Float) : Prop where
  mem : longest ∈ durations
  le : ∀ d ∈ durations, d ≤ longest
  nonneg : ∀ d ∈ durations, 0 ≤ d

variable {durations : List Float} {longest : Float}

theorem tolerance_nonneg : (0 : Float) ≤ SectionPerformance.durationTolerance := by decide +kernel

theorem larger_lowest {d : Float} (h : 0 ≤ d) : larger SectionPerformance.lowest d = d := by
  have hread : Exact.ofFloat? SectionPerformance.lowest = some ⟨true, 0x1fffffffffffff, 971⟩ := by
    decide +kernel
  obtain ⟨-, hzero⟩ | ⟨hpos, hlowest⟩ := unpack_of_ofFloat? hread
  · cases hzero
  have hlt : SectionPerformance.lowest < d := by
    rw [lt_iff, hlowest]
    obtain ⟨hu, -⟩ | ⟨⟨s, hu⟩, -⟩ | ⟨x, hpos, -, hu, -⟩ := nonneg_cases h <;> rw [hu] <;> rfl
  rw [larger, decide_eq_true hlt, Bool.or_true]
  rfl

theorem within_of_beq_zero {gap : Float} (h : gap == 0) :
    ¬SectionPerformance.durationTolerance < gap ∧ ¬gap == SectionPerformance.durationTolerance := by
  have hsame : Same gap 0 := .of_beq h
  refine ⟨fun hlt ↦ ?_, fun heq ↦ ?_⟩
  · exact absurd ((hsame.lt_iff _).2.mp hlt) (by decide +kernel)
  · have hzero : (0 : Float) == SectionPerformance.durationTolerance :=
      PartialEquivBEq.trans (PartialEquivBEq.symm h) heq
    exact absurd hzero (by decide +kernel)

namespace Longest

theorem foldl_lowest (hne : durations ≠ []) (h : ∀ d ∈ durations, 0 ≤ d) :
    Longest durations (durations.foldl larger SectionPerformance.lowest) := by
  cases durations with
  | nil => exact absurd rfl hne
  | cons d ds =>
    rw [List.foldl_cons, larger_lowest (h d List.mem_cons_self)]
    exact ⟨foldl_larger_mem d ds, le_foldl_larger h, h⟩

variable (h : Longest durations longest)

include h

theorem longest_nonneg : 0 ≤ longest := h.nonneg longest h.mem

theorem le_scopeLongest : ∀ d ∈ 0 :: durations, d ≤ Scope.longest durations :=
  le_foldl_larger (List.forall_mem_cons.mpr ⟨nonneg_zero, h.nonneg⟩)

theorem scopeLongest_nonneg : 0 ≤ Scope.longest durations := h.le_scopeLongest 0 List.mem_cons_self

theorem same : Same (Scope.longest durations) longest := by
  refine .of_le h.scopeLongest_nonneg h.longest_nonneg ?_
    (h.le_scopeLongest _ (List.mem_cons_of_mem _ h.mem))
  obtain heq | hmem := List.mem_cons.mp (foldl_larger_mem 0 durations)
  · rw [Scope.longest, heq]
    exact h.longest_nonneg
  · exact h.le _ hmem

theorem isInf_iff : longest.isInf ↔ ∃ d ∈ durations, (longest - d).isNaN := by
  constructor
  · exact fun hinf ↦ ⟨longest, h.mem, isNaN_sub_self hinf⟩
  · rintro ⟨d, hd, hnan⟩
    obtain ⟨hinf, -⟩ | hnonneg := sub_cases (h.nonneg d hd) h.longest_nonneg (h.le d hd)
    · exact hinf
    · exact absurd hnan (Bool.eq_false_iff.mp (isNaN_of_nonneg hnonneg))

theorem exists_not_close_iff :
    (∃ d ∈ durations, ¬(d - longest).abs < SectionPerformance.durationTolerance) ↔
      FallsShort durations longest ∨ longest.isInf ∨ FallsAtLimit durations longest := by
  have hclose : ∀ d ∈ durations, ¬(d - longest).abs < SectionPerformance.durationTolerance ↔
      _ := fun d hd ↦
    not_abs_sub_lt_iff (h.nonneg d hd) h.longest_nonneg (h.le d hd) tolerance_nonneg
  rw [h.isInf_iff, FallsShort, FallsAtLimit, ← exists_or, ← exists_or]
  refine exists_congr fun d ↦ ?_
  rw [← and_or_left, ← and_or_left]
  exact and_congr_right (hclose d)

theorem fallsShort_iff :
    (durations.any fun d ↦ voiceTolerance < (Scope.longest durations - d).abs) ↔
      FallsShort durations longest := by
  rw [List.any_eq_true]
  refine exists_congr fun d ↦ and_congr_right fun hd ↦ ?_
  rw [decide_eq_true_iff, lt_abs_sub_iff (h.nonneg d hd) h.scopeLongest_nonneg
    (h.le_scopeLongest d (List.mem_cons_of_mem _ hd))]
  exact ((h.same.sub d).lt_iff voiceTolerance).2

theorem even_of_beq (hequal : ∀ d ∈ durations, d == longest) (hfinite : ¬longest.isInf) :
    ¬FallsShort durations longest ∧ ¬FallsAtLimit durations longest := by
  have hwithin : ∀ d ∈ durations, _ := fun d hd ↦ within_of_beq_zero
    (sub_beq_zero (PartialEquivBEq.symm (hequal d hd))
      (isFinite_of_not_isInf h.longest_nonneg hfinite))
  exact ⟨fun ⟨d, hd, hshort⟩ ↦ (hwithin d hd).1 hshort, fun ⟨d, hd, hlimit⟩ ↦
    (hwithin d hd).2 hlimit⟩

/-- The maxima of the two checks differ at most in the sign of a zero, and then every
duration is a zero. -/
theorem eq_of_fallsShort (hshort : FallsShort durations longest) :
    Scope.longest durations = longest := by
  obtain heq | ⟨-, hzero⟩ := h.same
  · exact heq
  · obtain ⟨d, hd, hlt⟩ := hshort
    have hextent := (beq_iff_extent h.longest_nonneg nonneg_zero).mp hzero
    have hle := (le_iff_extent nonneg_zero (h.nonneg d hd)).mp (h.nonneg d hd)
    have hge := (le_iff_extent (h.nonneg d hd) h.longest_nonneg).mp (h.le d hd)
    have hbeq : longest == d :=
      (beq_iff_extent h.longest_nonneg (h.nonneg d hd)).mpr (le_antisymm (hextent ▸ hle) hge)
    have hfinite : longest.isFinite :=
      isFinite_of_beq (PartialEquivBEq.symm hzero) (by decide +kernel)
    exact absurd hlt (within_of_beq_zero (sub_beq_zero hbeq hfinite)).1

theorem settleVoices_remarks {scope : Scope} (hvoices : scope.progress.voices ≠ [])
    (hdurations : scope.progress.nextVoice.voices = durations) :
    scope.settleVoices.remarks = scope.remarks ++
      if FallsShort durations longest then [.located (.diffDuration longest durations) scope.place]
      else [] := by
  have hplace : scope.progress.nextVoice.place = scope.place := by
    unfold Progress.nextVoice
    dsimp only
    split <;> rfl
  unfold Scope.settleVoices
  rw [if_neg fun hempty ↦ hvoices (List.isEmpty_iff.mp hempty)]
  dsimp only
  rw [hdurations]
  by_cases hshort : FallsShort durations longest
  · rw [if_pos (h.fallsShort_iff.mpr hshort), if_pos hshort, h.eq_of_fallsShort hshort, ← hplace]
    rfl
  · rw [if_neg fun hany ↦ hshort (h.fallsShort_iff.mp hany), if_neg hshort, List.append_nil]

end Longest

namespace SectionPerformance

theorem mismatch?_eq (hne : durations ≠ []) (hnonneg : ∀ d ∈ durations, 0 ≤ d) :
    ∃ longest, Longest durations longest ∧ mismatch? durations =
      if FallsShort durations longest ∨ longest.isInf ∨ FallsAtLimit durations longest then
        some (.diffDuration longest durations)
      else none := by
  have hlongest := Longest.foldl_lowest hne hnonneg
  refine ⟨_, hlongest, ?_⟩
  unfold mismatch?
  generalize durations.foldl larger lowest = longest at *
  dsimp only
  rw [← ite_not]
  refine if_congr ?_ rfl rfl
  rw [← hlongest.exists_not_close_iff, List.all_eq_true]
  simp only [decide_eq_true_eq, not_forall, exists_prop]

/-- The check of a section and the check of overlay voices agree about durations that fall short of
the longest. The section also reports what is at the limit, and an infinite duration, which is not
close even to itself. -/
theorem mismatch_agrees_iff (hne : durations ≠ []) (hnonneg : ∀ d ∈ durations, 0 ≤ d) :
    ∃ longest ∈ durations, (∀ d ∈ durations, d ≤ longest) ∧
      (mismatch? durations =
        if FallsShort durations longest ∨ longest.isInf ∨ FallsAtLimit durations longest then
          some (.diffDuration longest durations)
        else none) ∧
      ((∀ d ∈ durations, d == longest) → ((mismatch? durations).isSome ↔ longest.isInf)) ∧
      ∀ scope : Scope, scope.progress.voices ≠ [] → scope.progress.nextVoice.voices = durations →
        (scope.settleVoices.remarks = scope.remarks ++
          if FallsShort durations longest then
            [.located (.diffDuration longest durations) scope.place]
          else []) ∧
        (((mismatch? durations).isSome ↔ scope.settleVoices.remarks ≠ scope.remarks) ↔
          FallsShort durations longest ∨ ¬longest.isInf ∧ ¬FallsAtLimit durations longest) := by
  obtain ⟨longest, hlongest, hmismatch⟩ := mismatch?_eq hne hnonneg
  have hreported : (mismatch? durations).isSome ↔
      FallsShort durations longest ∨ longest.isInf ∨ FallsAtLimit durations longest := by
    rw [hmismatch]
    split
    next hmet => exact iff_of_true rfl hmet
    next hnone => exact iff_of_false Bool.false_ne_true hnone
  refine ⟨longest, hlongest.mem, hlongest.le, hmismatch, fun hequal ↦ ?_,
    fun scope hvoices hdurations ↦ ?_⟩
  · rw [hreported]
    refine ⟨fun hmet ↦ by_contra fun hfinite ↦ ?_, fun hinf ↦ .inr (.inl hinf)⟩
    obtain ⟨hshort, hlimit⟩ := hlongest.even_of_beq hequal hfinite
    obtain hmet | hmet | hmet := hmet
    · exact hshort hmet
    · exact hfinite hmet
    · exact hlimit hmet
  · have hremarks := hlongest.settleVoices_remarks hvoices hdurations
    refine ⟨hremarks, ?_⟩
    rw [hreported, hremarks]
    by_cases hshort : FallsShort durations longest
    · simp [hshort]
    · simp [hshort]

namespace Endless

/-- A beat at a valid speed that is too slow for a float. -/
def seconds : Float := 60 / 1e-308

def scope : Scope where
  settings := {}
  progress := { voices := [seconds] }
  marks := ∅
  traceStart := 0
  nested := false

end Endless

theorem mismatch_agrees_iff_endless :
    mismatch? [Endless.seconds] = some (.diffDuration Endless.seconds [Endless.seconds]) ∧
      Endless.scope.settleVoices.remarks = [] := by
  have hnonneg : ∀ d ∈ [Endless.seconds], 0 ≤ d := List.forall_mem_singleton.mpr (by decide +kernel)
  obtain ⟨longest, hmem, -, hsection, -, hoverlay⟩ :=
    mismatch_agrees_iff (List.cons_ne_nil _ _) hnonneg
  obtain rfl := List.mem_singleton.mp hmem
  obtain ⟨hremarks, -⟩ := hoverlay Endless.scope (List.cons_ne_nil _ _) (by decide +kernel)
  have hinf : Endless.seconds.isInf := by decide +kernel
  have hshort : ¬FallsShort [Endless.seconds] Endless.seconds := by decide +kernel
  rw [if_pos (.inr (.inl hinf))] at hsection
  rw [if_neg hshort] at hremarks
  exact ⟨hsection, hremarks⟩

end SectionPerformance

end Rendition
