import Rendition.Proofs.Play.Frame

namespace Rendition

def Finding.isOfNote : Finding → Bool
  | .noPrevious .. | .reduplicate _ | .volumeLimit _ | .chordRange .. | .onFixedNote _
  | .unusedNote .. |
    .unknownChord _ | .unknownPitch _ => true
  | _ => false

section Except

variable {ε α β : Type} {e : ε}

theorem error_of_bind {x : Except ε α} {f : α → Except ε β} (h : x >>= f = .error e) :
    x = .error e ∨ ∃ a, f a = .error e := by
  cases x with
  | error e' =>
    cases h
    exact .inl rfl
  | ok a => exact .inr ⟨a, h⟩

theorem error_of_mapM {f : α → Except ε β} {xs : List α} (h : xs.mapM f = .error e) :
    ∃ x ∈ xs, f x = .error e := by
  induction xs with
  | nil => cases h
  | cons x xs ih =>
    rw [List.mapM_cons] at h
    obtain h | ⟨y, h⟩ := error_of_bind h
    · exact ⟨x, List.mem_cons_self, h⟩
    · obtain h | ⟨ys, h⟩ := error_of_bind h
      · obtain ⟨y, hmem, hy⟩ := ih h
        exact ⟨y, List.mem_cons_of_mem x hmem, hy⟩
      · cases h

end Except

namespace Chord

variable {letter : Char} {tones : List Tone} {rule : ChordRule} {chord : Chord} {finding : Finding}

theorem range_error {n : Nat} (h : range letter n rule = .error finding) :
    ∃ bound index, finding = .chordRange letter bound index := by
  have hplace : ∀ index, (place n index).mapError (fun bound ↦ .chordRange letter bound index) =
      .error finding →
      ∃ bound index, finding = .chordRange letter bound index := by
    intro index h
    cases hp : place n index with
    | error bound =>
      rw [hp] at h
      cases h
      exact ⟨bound, index, rfl⟩
    | ok i => rw [hp] at h; cases h
  obtain h | ⟨head, h⟩ := error_of_bind h
  · exact hplace _ h
  · obtain h | ⟨tail, h⟩ := error_of_bind h
    · exact hplace _ h
    · cases h

theorem isOfNote_of_apply (h : chord.apply letter tones = .error finding) : finding.isOfNote := by
  obtain h | ⟨copies, h⟩ := error_of_bind h
  · obtain ⟨rule, -, h⟩ := error_of_mapM h
    obtain h | ⟨places, h⟩ := error_of_bind h
    · obtain ⟨bound, index, rfl⟩ := range_error h
      rfl
    · dsimp only at h
      split at h
      · cases h
        rfl
      · cases h
  · cases h

theorem isOfNote_of_mem_applyAll {chord? : Char → Option Chord} {letters : List Char}
    (h : finding ∈ (applyAll chord? letters tones).2) : finding.isOfNote := by
  induction letters generalizing tones with
  | nil => cases h
  | cons letter letters ih =>
    rw [applyAll] at h
    obtain h | h := List.mem_append.mp h
    · split at h
      · obtain rfl := List.mem_singleton.mp h
        rfl
      · split at h
        · next hf =>
          obtain rfl := List.mem_singleton.mp h
          exact isOfNote_of_apply hf
        · dsimp only at h
          split at h
          · cases h
          · obtain rfl := List.mem_singleton.mp h
            rfl
    · exact ih h

end Chord

theorem WrittenPitch.isOfNote_of_tones {pitch : WrittenPitch} {context : PitchContext}
    {finding : Finding} (h : pitch.tones context = .error finding) : finding.isOfNote := by
  unfold tones at h
  split at h
  · cases h
  · cases h
  · obtain h | ⟨tones, h⟩ := error_of_bind h
    · unfold recalled? at h
      dsimp only at h
      split at h
      · cases h
        rfl
      · cases h
    · cases h
  · cases h
  · split at h
    · cases h
    · cases h
    · cases h
      rfl

theorem WrittenPitch.isOfNote_of_mem_read {pitch : WrittenPitch} {context : PitchContext}
    {finding : Finding} (h : finding ∈ (pitch.read context).findings) : finding.isOfNote := by
  unfold read at h
  split at h
  · cases h
  · cases h
  · split at h
    next he =>
      obtain rfl := List.mem_singleton.mp h
      exact isOfNote_of_tones he
    next => exact Chord.isOfNote_of_mem_applyAll h

namespace Note

theorem isOfNote_of_mem_excesses {sounds : List Sound} {finding : Finding}
    (h : finding ∈ excesses sounds) :
    finding.isOfNote := by
  unfold excesses at h
  dsimp only at h
  obtain h | h := List.mem_append.mp h <;> split at h
  · cases h
  · obtain rfl := List.mem_singleton.mp h
    rfl
  · cases h
  · obtain rfl := List.mem_singleton.mp h
    rfl

variable {note : Note} {stage : Stage} {settings : Settings} {s : Session} {progress : Progress}
  {r : Remark}

theorem isOfNote_of_mem_play (h : r ∈ (note.play stage settings s progress).1.remarks) :
    r.finding.isOfNote ∧ r.path = [progress.place] := by
  obtain ⟨finding, hf, rfl⟩ := List.mem_map.mp h
  refine ⟨?_, rfl⟩
  obtain hf | hf := List.mem_append.mp hf
  · obtain ⟨reading, hreading, hf⟩ := List.mem_flatMap.mp hf
    obtain ⟨pitch, -, rfl⟩ := List.mem_map.mp hreading
    exact pitch.isOfNote_of_mem_read hf
  · exact isOfNote_of_mem_excesses hf

theorem isMetric_of_mem_play (h : r ∈ (note.play stage settings s progress).1.remarks) :
    r.finding.isMetric = false := by
  obtain ⟨hnote, -⟩ := isOfNote_of_mem_play h
  cases hf : r.finding <;> rw [hf] at hnote <;> first | rfl | cases hnote

end Note

end Rendition
