import Mathlib.Data.List.Basic
import Mathlib.Data.List.Count
import Rendition.Proofs.Play.Store
import Rendition.Proofs.Sound.Findings
import Rendition.Sound.Playing

namespace Rendition

/-- Whether a degree is the name of pitches that sound as they are. -/
def Degree.isFixed (names : PitchNames) : Degree → Bool
  | .named name => match names.find? name with
    | some (.fixed _) => true
    | _ => false
  | _ => false

namespace Semitones

/-- Sums that addition does not clip. -/
def Fit (sums : List Int) : Prop := ∀ x ∈ sums, lowest ≤ x ∧ x ≤ highest

instance (sums : List Int) : Decidable (Fit sums) :=
  inferInstanceAs (Decidable (∀ x ∈ sums, lowest ≤ x ∧ x ≤ highest))

theorem fit_append {sums sums' : List Int} : Fit (sums ++ sums') ↔ Fit sums ∧ Fit sums' :=
  List.forall_mem_append

theorem add_of_fit {a b : Int32} (h : lowest ≤ a.toInt + b.toInt ∧ a.toInt + b.toInt ≤ highest) :
    add a b = a + b := by
  rw [add, Number.clamp_of_mem h.1 h.2, Int32.ofInt_add, Int32.ofInt_toInt, Int32.ofInt_toInt]

theorem add_zero (a : Int32) : add a 0 = a := by
  have hfit : lowest ≤ a.toInt + (0 : Int32).toInt ∧ a.toInt + (0 : Int32).toInt ≤ highest := by
    rw [Int32.toInt_zero, Int.add_zero]
    exact ⟨a.le_toInt, Int.le_sub_one_of_lt a.toInt_lt⟩
  rw [add_of_fit hfit, Int32.add_zero]

theorem add_raise {a b n : Int32} (h : lowest ≤ a.toInt + b.toInt ∧ a.toInt + b.toInt ≤ highest)
    (h' : lowest ≤ (a + n).toInt + b.toInt ∧ (a + n).toInt + b.toInt ≤ highest) :
    add (a + n) b = add a b + n := by
  rw [add_of_fit h, add_of_fit h', Int32.add_assoc, Int32.add_comm n, Int32.add_assoc]

end Semitones

section Sums

def Chord.copySums (letter : Char) (tones : List Tone) (rule : ChordRule) : List Int :=
  match range letter tones.length rule with
  | .ok (head, tail) => (cut head tail tones).map (·.offset.toInt + rule.delta.toInt)
  | .error _ => []

/-- The sums that a chord makes up to the first of its rules that cannot be followed. -/
def Chord.sums (letter : Char) (tones : List Tone) : Chord → List Int
  | [] => []
  | rule :: rest => copySums letter tones rule ++ match copy letter tones rule with
    | .ok _ => Chord.sums letter tones rest
    | .error _ => []

def Chord.sumsOfAll (chord? : Char → Option Chord) : List Char → List Tone → List Int
  | [], _ => []
  | letter :: letters, tones => match chord? letter with
    | none => sumsOfAll chord? letters tones
    | some chord => chord.sums letter tones ++ match chord.apply letter tones with
      | .error _ => sumsOfAll chord? letters tones
      | .ok (copies, _) => sumsOfAll chord? letters copies

namespace WrittenPitch

variable (pitch : WrittenPitch) (context : PitchContext)

def replaySums : List Int :=
  match pitch.degree, recalled? context with
  | .retrace, .ok tones =>
    (tones.filter (!·.fixed)).map (·.offset.toInt + (pitch.delta context).toInt)
  | _, _ => []

def voiceSums (settings : Settings) (tone : Tone) : List Int :=
  if tone.fixed then []
  else settings.key.map fun offset ↦ tone.offset.toInt + (offset - keyRoot settings).toInt

/-- The sums that reading a pitch makes with additions that clip. -/
def sums : List Int :=
  match pitch.degree with
  | .rest | .unpitched => []
  | _ => pitch.replaySums context ++ match pitch.tones context with
    | .error _ => []
    | .ok base => Chord.sumsOfAll context.chords.find? pitch.chords.toList base ++
      (Chord.applyAll context.chords.find? pitch.chords.toList base).1.flatMap
      (voiceSums context.settings)

end WrittenPitch

def Note.sums (note : Note) (stage : Stage) (settings : Settings) (trace : Trace) : List Int :=
  note.pitches.flatMap (·.sums (note.context stage settings trace))

end Sums

section Raise

variable (n : Int32)

/-- Offsets are added modulo `2 ^ 32`, so that `n` stands for any whole number of semitones. -/
def Settings.raise (s : Settings) : Settings := { s with key := s.key.map (· + n) }

def Tone.raise (tone : Tone) : Tone := { tone with offset := tone.offset + n }

def Trace.raise (trace : Trace) : Trace := trace.map (List.map (Tone.raise n))

def Sound.raise (sound : Sound) : Sound := { sound with pitch := sound.pitch.map (· + n) }

def Pending.raise (tie : Pending) : Pending := { tie with pitch := tie.pitch.map (· + n) }

def Event.raise (e : Event) : Event := { e with pitch := e.pitch.map (· + n) }

def Session.raise (s : Session) : Session where
  trace := Trace.raise n s.trace
  pending := s.pending.map (Pending.raise n)
  tieLeft := s.tieLeft
  active := s.active
  events := s.events.map (Event.raise n)

def Progress.raise (p : Progress) : Progress := { p with trace := Trace.raise n p.trace }

/-- Offsets are told of repeated pitches only. -/
def Finding.raise : Finding → Finding
  | .reduplicate offsets => .reduplicate (offsets.map (· + n))
  | finding => finding

def Remark.raise (r : Remark) : Remark := { r with finding := r.finding.raise n }

def PitchContext.raise (context : PitchContext) : PitchContext :=
  { context with settings := context.settings.raise n, trace := Trace.raise n context.trace }

def PitchReading.raise (reading : PitchReading) : PitchReading where
  sounds := reading.sounds.map (Sound.raise n)
  tones := reading.tones.map (Tone.raise n)
  findings := reading.findings.map (Finding.raise n)

def raiseResult {α : Type} (raise : α → α) : Except Finding α → Except Finding α
  | .ok a => .ok (raise a)
  | .error finding => .error (finding.raise n)

end Raise

open Semitones

variable {n : Int32}

theorem Tone.shift_raise {tone : Tone} {delta : Int32}
    (h : lowest ≤ tone.offset.toInt + delta.toInt ∧ tone.offset.toInt + delta.toInt ≤ highest)
    (h' : lowest ≤ (tone.offset + n).toInt + delta.toInt ∧
      (tone.offset + n).toInt + delta.toInt ≤ highest) :
    (tone.raise n).shift delta = (tone.shift delta).raise n := by
  simp only [Tone.shift, Tone.raise, add_raise h h']

namespace Chord

variable {letter : Char} {tones : List Tone}

theorem cut_raise (head tail : Nat) :
    cut head tail (tones.map (Tone.raise n)) = (cut head tail tones).map (Tone.raise n) := by
  simp [cut]

theorem copy_raise {rule : ChordRule} (h : Fit (copySums letter tones rule))
    (h' : Fit (copySums letter (tones.map (Tone.raise n)) rule)) :
    copy letter (tones.map (Tone.raise n)) rule = raiseResult n (List.map (Tone.raise n))
      (copy letter tones rule) := by
  unfold copySums at h h'
  unfold copy
  rw [List.length_map] at h' ⊢
  cases hr : range letter tones.length rule with
  | error finding =>
    obtain ⟨bound, index, rfl⟩ := range_error hr
    rfl
  | ok bounds =>
    rw [hr] at h h'
    obtain ⟨head, tail⟩ := bounds
    dsimp only at h h'
    change (if (cut head tail (tones.map (Tone.raise n))).any Tone.fixed then _ else _) =
      raiseResult n _ (if (cut head tail tones).any Tone.fixed then _ else _)
    have hfixed : Tone.fixed ∘ Tone.raise n = Tone.fixed := rfl
    rw [cut_raise, List.any_map, hfixed]
    split
    · rfl
    · rw [cut_raise, List.map_map] at h'
      refine congrArg Except.ok ?_
      rw [List.map_map, List.map_map]
      refine List.map_congr_left ?_
      intro tone ht
      exact Tone.shift_raise (h _ (List.mem_map_of_mem ht)) (h' _ (List.mem_map_of_mem ht))

theorem mapM_copy_raise {chord : Chord} (h : Fit (chord.sums letter tones))
    (h' : Fit (chord.sums letter (tones.map (Tone.raise n)))) :
    chord.mapM (copy letter (tones.map (Tone.raise n))) =
      raiseResult n (List.map (List.map (Tone.raise n))) (chord.mapM (copy letter tones)) := by
  induction chord with
  | nil => rfl
  | cons rule rest ih =>
    rw [sums, fit_append] at h h'
    obtain ⟨hfirst, hrest⟩ := h
    obtain ⟨hfirst', hrest'⟩ := h'
    rw [List.mapM_cons, List.mapM_cons]
    rw [copy_raise hfirst hfirst'] at hrest' ⊢
    cases hc : copy letter tones rule with
    | error finding => rfl
    | ok copied =>
      rw [hc] at hrest hrest'
      change (rest.mapM (copy letter (tones.map (Tone.raise n))) >>= _) =
        raiseResult n _ (rest.mapM (copy letter tones) >>= _)
      rw [ih hrest hrest']
      cases rest.mapM (copy letter tones) <;> rfl

theorem apply_raise {chord : Chord} (h : Fit (chord.sums letter tones))
    (h' : Fit (chord.sums letter (tones.map (Tone.raise n)))) :
    chord.apply letter (tones.map (Tone.raise n)) =
      raiseResult n (fun x ↦ (x.1.map (Tone.raise n), x.2)) (chord.apply letter tones) := by
  unfold apply
  rw [mapM_copy_raise h h', List.length_map]
  cases chord.mapM (copy letter tones) with
  | error finding => rfl
  | ok copies =>
    refine congrArg (fun tones ↦ Except.ok (tones, _)) ?_
    exact List.map_flatten.symm

theorem applyAll_raise {chord? : Char → Option Chord} {letters : List Char}
    (h : Fit (sumsOfAll chord? letters tones))
    (h' : Fit (sumsOfAll chord? letters (tones.map (Tone.raise n)))) :
    applyAll chord? letters (tones.map (Tone.raise n)) =
      ((applyAll chord? letters tones).1.map (Tone.raise n),
        (applyAll chord? letters tones).2.map (Finding.raise n)) := by
  induction letters generalizing tones with
  | nil => rfl
  | cons letter letters ih =>
    rw [sumsOfAll] at h h'
    rw [applyAll, applyAll]
    cases hc : chord? letter with
    | none =>
      rw [hc] at h h'
      dsimp only
      rw [ih h h']
      rfl
    | some chord =>
      rw [hc] at h h'
      obtain ⟨hfirst, hrest⟩ := fit_append.mp h
      obtain ⟨hfirst', hrest'⟩ := fit_append.mp h'
      rw [apply_raise hfirst hfirst'] at hrest'
      dsimp only
      rw [apply_raise hfirst hfirst']
      cases ha : chord.apply letter tones with
      | error finding =>
        rw [ha] at hrest hrest'
        dsimp only [raiseResult]
        rw [ih hrest hrest']
        rfl
      | ok x =>
        rw [ha] at hrest hrest'
        dsimp only [raiseResult]
        rw [ih hrest hrest', List.map_append]
        split <;> rfl

end Chord

namespace WrittenPitch

variable {pitch : WrittenPitch} {context : PitchContext} {settings : Settings}

theorem keyRoot_raise (hk : settings.key ≠ []) :
    keyRoot (settings.raise n) = keyRoot settings + n := by
  obtain ⟨root, voices, h⟩ := List.exists_cons_of_ne_nil hk
  simp [keyRoot, Settings.raise, h]

theorem scaleTone?_raise (hk : context.settings.key ≠ []) (step : UInt8) :
    pitch.scaleTone? (context.raise n) step =
      (pitch.scaleTone? context step).map (Tone.raise n) := by
  have hroot : keyRoot (context.raise n).settings = keyRoot context.settings + n := keyRoot_raise hk
  have hdelta : pitch.delta (context.raise n) = pitch.delta context := rfl
  have hgain : pitch.gain (context.raise n) = pitch.gain context := rfl
  unfold scaleTone?
  -- The root is in the offset of the tone already: the first voice adds nothing to it.
  rw [Option.map_map, hroot, hdelta, hgain]
  cases semitones? step with
  | none => rfl
  | some semitones =>
    simp only [Option.map_some, Function.comp_apply, Tone.raise, Option.some.injEq,
      Tone.mk.injEq, and_true]
    grind

theorem recalled?_raise :
    recalled? (context.raise n) = raiseResult n (List.map (Tone.raise n)) (recalled? context) := by
  have hlength : (context.raise n).trace.length = context.trace.length := List.length_map _
  unfold recalled?
  rw [hlength]
  dsimp only [PitchContext.raise, Settings.raise, Trace.raise]
  split
  · rfl
  · rw [List.getElem?_map]
    cases context.trace[context.trace.length - context.settings.trace]? <;> rfl

theorem replay_raise {tone : Tone}
    (h : tone.fixed = false → lowest ≤ tone.offset.toInt + (pitch.delta context).toInt ∧
      tone.offset.toInt + (pitch.delta context).toInt ≤ highest)
    (h' : tone.fixed = false → lowest ≤ (tone.offset + n).toInt + (pitch.delta context).toInt ∧
      (tone.offset + n).toInt + (pitch.delta context).toInt ≤ highest) :
    pitch.replay (context.raise n) (tone.raise n) = (pitch.replay context tone).raise n := by
  have hdelta : pitch.delta (context.raise n) = pitch.delta context := rfl
  have hgain : pitch.gain (context.raise n) = pitch.gain context := rfl
  have hfixed : (tone.raise n).fixed = tone.fixed := rfl
  unfold replay
  rw [hdelta, hgain, hfixed]
  split
  · rfl
  next hf =>
    have hmoves : tone.fixed = false := eq_false_of_ne_true hf
    rw [Tone.shift_raise (h hmoves) (h' hmoves)]
    rfl

theorem tones_raise (hk : context.settings.key ≠ [])
    (hf : pitch.degree.isFixed context.names = false) (h : Fit (pitch.replaySums context))
    (h' : Fit (pitch.replaySums (context.raise n))) :
    pitch.tones (context.raise n) = raiseResult n (List.map (Tone.raise n))
      (pitch.tones context) := by
  have hnames : (context.raise n).names = context.names := rfl
  unfold replaySums at h h'
  unfold tones
  cases hd : pitch.degree with
  | rest | unpitched => rfl
  | scale step =>
    dsimp only
    rw [scaleTone?_raise hk]
    cases pitch.scaleTone? context step <;> rfl
  | named name =>
    rw [hd, Degree.isFixed] at hf
    dsimp only
    rw [hnames]
    cases hname : context.names.find? name with
    | none => rfl
    | some voicing =>
      cases voicing with
      | fixed offsets =>
        rw [hname] at hf
        cases hf
      | degrees steps =>
        refine congrArg Except.ok ?_
        rw [List.map_filterMap]
        exact congrArg (steps.filterMap ·) (funext (scaleTone?_raise hk))
  | retrace =>
    rw [hd] at h h'
    rw [recalled?_raise] at h'
    dsimp only
    rw [recalled?_raise]
    cases hr : recalled? context with
    | error finding => rfl
    | ok recalled =>
      rw [hr] at h h'
      refine congrArg Except.ok ?_
      rw [List.map_map, List.map_map]
      refine List.map_congr_left ?_
      intro tone ht
      have hmem (hmoves : tone.fixed = false) : tone ∈ recalled.filter (!·.fixed) :=
        List.mem_filter.mpr ⟨ht, by rw [hmoves]; rfl⟩
      have hmem' (hmoves : tone.fixed = false) :
          tone.raise n ∈ (recalled.map (Tone.raise n)).filter (!·.fixed) :=
        List.mem_filter.mpr ⟨List.mem_map_of_mem ht, by rw [Tone.raise, hmoves]; rfl⟩
      exact replay_raise (fun hmoves ↦ h _ (List.mem_map_of_mem (hmem hmoves)))
        fun hmoves ↦ h' _ (List.mem_map_of_mem (hmem' hmoves))

theorem voices_raise (hk : settings.key ≠ []) {tone : Tone} (h : Fit (voiceSums settings tone))
    (h' : Fit (voiceSums (settings.raise n) (tone.raise n))) :
    voices (settings.raise n) (tone.raise n) = (voices settings tone).map (Sound.raise n) := by
  have hfixed : (tone.raise n).fixed = tone.fixed := rfl
  have hvolume : (settings.raise n).volumeOf = settings.volumeOf := rfl
  unfold voices voiceSums at *
  rw [hfixed] at h' ⊢
  rw [keyRoot_raise hk] at h' ⊢
  split
  · rfl
  next hf =>
    rw [if_neg hf] at h h'
    refine List.ext_getElem (by simp [Settings.raise]) ?_
    intro voice hi hi'
    have hvoice : voice < settings.key.length := by simpa using hi'
    have hsum := h _ (List.mem_map_of_mem (List.getElem_mem hvoice))
    have hsum' := h' _ (List.mem_map_of_mem (List.mem_map_of_mem (List.getElem_mem hvoice)))
    -- A voice lies as far from the root as before, so it moves as its tone does.
    have hkey : settings.key[voice] + n - (keyRoot settings + n) = settings.key[voice] -
        keyRoot settings := by grind
    rw [hkey] at hsum'
    simp only [List.getElem_mapIdx, List.getElem_map, Settings.raise, Sound.raise, Tone.raise,
      Option.map_some]
    rw [hkey, add_raise hsum hsum']
    rfl

theorem hits_raise : pitch.hits (context.raise n) = (pitch.hits context).map (Sound.raise n) := by
  have hkey : (context.raise n).settings.key.length = context.settings.key.length :=
    List.length_map _
  unfold hits
  rw [hkey, List.map_map]
  rfl

theorem read_of_pitched (hd : pitch.degree ≠ .rest ∧ pitch.degree ≠ .unpitched) :
    pitch.read context = match pitch.tones context with
      | .error finding => { findings := [finding] }
      | .ok base =>
        let (tones, findings) := Chord.applyAll context.chords.find? pitch.chords.toList base
        { sounds := tones.flatMap (voices context.settings), tones, findings } := by
  unfold read
  split
  next h => exact absurd h hd.1
  next h => exact absurd h hd.2
  next => rfl

theorem sums_of_pitched (hd : pitch.degree ≠ .rest ∧ pitch.degree ≠ .unpitched) :
    pitch.sums context = pitch.replaySums context ++ match pitch.tones context with
      | .error _ => []
      | .ok base => Chord.sumsOfAll context.chords.find? pitch.chords.toList base ++
        (Chord.applyAll context.chords.find? pitch.chords.toList base).1.flatMap
        (voiceSums context.settings) := by
  unfold sums
  split
  next h => exact absurd h hd.1
  next h => exact absurd h hd.2
  next => rfl

theorem read_raise (hk : context.settings.key ≠ [])
    (hf : pitch.degree.isFixed context.names = false) (h : Fit (pitch.sums context))
    (h' : Fit (pitch.sums (context.raise n))) :
    pitch.read (context.raise n) = (pitch.read context).raise n := by
  have hsounding (hd : pitch.degree ≠ .rest ∧ pitch.degree ≠ .unpitched) :
      pitch.read (context.raise n) = (pitch.read context).raise n := by
    have hchords : (context.raise n).chords = context.chords := rfl
    rw [sums_of_pitched hd, fit_append] at h h'
    obtain ⟨hreplay, hbase⟩ := h
    obtain ⟨hreplay', hbase'⟩ := h'
    rw [tones_raise hk hf hreplay hreplay'] at hbase'
    rw [read_of_pitched hd, read_of_pitched hd, tones_raise hk hf hreplay hreplay', hchords]
    rw [hchords] at hbase'
    cases ht : pitch.tones context with
    | error finding => rfl
    | ok base =>
      rw [ht] at hbase hbase'
      obtain ⟨hchorded, hvoiced⟩ := fit_append.mp hbase
      obtain ⟨hchorded', hvoiced'⟩ := fit_append.mp hbase'
      dsimp only [raiseResult]
      rw [Chord.applyAll_raise hchorded hchorded'] at hvoiced' ⊢
      simp only [PitchReading.raise, PitchReading.mk.injEq, and_true]
      rw [List.flatMap_map] at hvoiced' ⊢
      rw [List.map_flatMap]
      refine List.flatMap_congr ?_
      intro tone ht
      exact voices_raise hk (fun x hx ↦ hvoiced x (List.mem_flatMap_of_mem ht hx)) fun x hx ↦
        hvoiced' x (List.mem_flatMap_of_mem ht hx)
  cases hd : pitch.degree with
  | rest =>
    rw [read, read, hd]
    rfl
  | unpitched =>
    rw [read, read, hd]
    dsimp only
    rw [hits_raise]
    rfl
  | retrace | scale step | named name =>
    exact hsounding (by simp [hd])

end WrittenPitch

theorem listRepeated_raise (before listed offsets : List Int32) :
    listRepeated (before.map (· + n)) (listed.map (· + n)) (offsets.map (· + n)) =
      (listRepeated before listed offsets).map (· + n) := by
  have hinjective : Function.Injective (· + n : Int32 → Int32) := fun a b h ↦ by
    simpa using h
  induction offsets generalizing before listed with
  | nil => rfl
  | cons x rest ih =>
    rw [List.map_cons, listRepeated, listRepeated, ← ih, List.map_append,
      apply_ite (List.map (· + n)), List.map_append]
    simp only [List.mem_map_of_injective hinjective, List.map_singleton]

namespace Pending

theorem continues_raise (tie : Pending) (sound : Sound) :
    (tie.raise n).continues (sound.raise n) = tie.continues sound := by
  have hpitch : sound.pitch.map (· + n) = tie.pitch.map (· + n) ↔ sound.pitch = tie.pitch :=
    (Option.map_injective fun a b h ↦ by simpa using h).eq_iff
  simp only [continues, raise, Sound.raise, hpitch]

theorem pair_raise (ties : List Pending) (sounds : List Sound) :
    pair (ties.map (raise n)) (sounds.map (Sound.raise n)) =
      ((pair ties sounds).1.map (raise n), (pair ties sounds).2.map (Sound.raise n)) := by
  induction ties generalizing sounds with
  | nil => rfl
  | cons tie ties ih =>
    have hcontinues : (tie.raise n).continues ∘ Sound.raise n = tie.continues :=
      funext tie.continues_raise
    rw [List.map_cons, pair, pair, List.any_map, List.eraseP_map, hcontinues]
    split
    · rw [ih]
      rfl
    · exact ih sounds

end Pending

namespace Session

theorem revise_raise (s : Session) (id : Nat) {f : Event → Event}
    (hf : ∀ e, f (e.raise n) = (f e).raise n) :
    (s.raise n).revise id f = (s.revise id f).raise n := by
  simp only [revise, raise, modify_map hf]

theorem later_raise (s : Session) (ids : List Nat) (time beats : Float) :
    (s.raise n).later ids time beats = (s.later ids time beats).raise n :=
  List.foldl_hom (raise n) fun s id ↦ s.revise_raise id fun _ ↦ rfl

theorem record_raise (s : Session) (tones : List Tone) :
    (s.raise n).record (tones.map (Tone.raise n)) = (s.record tones).raise n := by
  have htrace : Trace.raise n s.trace ++ [tones.map (Tone.raise n)] =
      Trace.raise n (s.trace ++ [tones]) :=
    by simp [Trace.raise]
  unfold record
  rw [List.isEmpty_map]
  split
  · rfl
  · simp only [raise, htrace]

theorem tieOver_raise (s : Session) (timing : Timing) (sounds : List Sound) :
    (s.raise n).tieOver timing (sounds.map (Sound.raise n)) =
      ((s.tieOver timing sounds).1.raise n, (s.tieOver timing sounds).2.1.map (Pending.raise n),
        (s.tieOver timing sounds).2.2.map (Sound.raise n)) := by
  have hpair : Pending.pair (s.raise n).pending (sounds.map (Sound.raise n)) = _ :=
    Pending.pair_raise s.pending sounds
  have hprolong (s : Session) (ties : List Pending) :
      (ties.map (Pending.raise n)).foldl (fun s tie ↦ s.revise tie.event (·.prolong timing))
      (s.raise n) = (ties.foldl (fun s tie ↦ s.revise tie.event (·.prolong timing)) s).raise n := by
    rw [List.foldl_map]
    exact List.foldl_hom (raise n) fun s tie ↦ s.revise_raise tie.event fun _ ↦ rfl
  have htieLeft : (s.raise n).tieLeft = s.tieLeft := rfl
  unfold tieOver
  rw [htieLeft]
  split
  · simp only [hpair, hprolong]
    rfl
  · rfl

theorem startAll_raise (s : Session) (events : List Event) :
    (s.raise n).startAll (events.map (Event.raise n)) = ((s.startAll events).1.raise n,
      (s.startAll events).2) := by
  have hstart : (events.map (Event.raise n)).foldl start (s.raise n) =
      (events.foldl start s).raise n := by
    rw [List.foldl_map]
    refine List.foldl_hom (raise n) ?_
    intro s e
    simp only [start, raise, Array.map_push]
  simp only [startAll, hstart, List.length_map]
  simp only [raise, Array.size_map]

end Session

namespace Note

variable {note : Note} {stage : Stage} {settings : Settings}

def IsMovable (names : PitchNames) (note : Note) : Prop :=
  ∀ pitch ∈ note.pitches, pitch.degree.isFixed names = false

instance (names : PitchNames) (note : Note) : Decidable (note.IsMovable names) :=
  inferInstanceAs (Decidable (∀ pitch ∈ note.pitches, pitch.degree.isFixed names = false))

theorem read_raise {trace : Trace} (hk : settings.key ≠ []) (hm : note.IsMovable stage.names)
    (h : Fit (note.sums stage settings trace))
    (h' : Fit (note.sums stage (settings.raise n) (Trace.raise n trace))) :
    note.read stage (settings.raise n) (Trace.raise n trace) =
      (note.read stage settings trace).raise n := by
  have hcontext : note.context stage (settings.raise n) (Trace.raise n trace) =
      (note.context stage settings trace).raise n := rfl
  have hpitches : note.pitches.map (·.read ((note.context stage settings trace).raise n)) =
      (note.pitches.map (·.read (note.context stage settings trace))).map
      (PitchReading.raise n) := by
    rw [List.map_map]
    refine List.map_congr_left ?_
    intro pitch hp
    exact WrittenPitch.read_raise hk (hm pitch hp) (fun x hx ↦
      h x (List.mem_flatMap_of_mem hp hx)) fun x hx ↦
      h' x (List.mem_flatMap_of_mem hp hx)
  unfold read
  rw [hcontext, hpitches]
  simp only [PitchReading.raise, List.flatMap_map, List.map_flatMap]

theorem excesses_raise (sounds : List Sound) :
    excesses (sounds.map (Sound.raise n)) = (excesses sounds).map (Finding.raise n) := by
  have hpitches : (sounds.map (Sound.raise n)).filterMap Sound.pitch =
      (sounds.filterMap Sound.pitch).map (· + n) := by
    rw [List.filterMap_map, List.map_filterMap]
    rfl
  have hrepeated : repeatedOffsets (sounds.map (Sound.raise n)) =
      (repeatedOffsets sounds).map (· + n) := by
    rw [repeatedOffsets, hpitches]
    exact listRepeated_raise [] [] _
  have hvolumes : (sounds.map (Sound.raise n)).map Sound.volume = sounds.map Sound.volume := by
    rw [List.map_map]
    rfl
  unfold excesses
  rw [hrepeated, hvolumes]
  dsimp only
  rw [List.isEmpty_map, List.map_append]
  congr 1 <;> split <;> rfl

theorem play_raise (hp : stage.repertoire.plugins = ∅) {s : Session} (progress : Progress)
    (hk : settings.key ≠ []) (hm : note.IsMovable stage.names)
    (h : Fit (note.sums stage settings s.trace))
    (h' : Fit (note.sums stage (settings.raise n) (Trace.raise n s.trace))) :
    note.play stage (settings.raise n) (s.raise n) (progress.raise n) =
      ({ (note.play stage settings s progress).1 with
          remarks := (note.play stage settings s progress).1.remarks.map (Remark.raise n) },
        (note.play stage settings s progress).2.1.raise n,
        (note.play stage settings s progress).2.2.raise n) := by
  have hread : note.read stage (settings.raise n) (s.raise n).trace =
      (note.read stage settings s.trace).raise n :=
    read_raise hk hm h h'
  have htiming : note.timing (settings.raise n) = note.timing settings := rfl
  have hrevise (settings : Settings) (events : List Event) :
      stage.repertoire.plugins.revise settings events = events := by
    rw [hp]
    rfl
  have hfresh (sounds : List Sound) : (sounds.map (Sound.raise n)).map
      (Event.ofSound (note.timing settings) (progress.raise n).duration
        (progress.raise n).beatCount) =
        (sounds.map (.ofSound (note.timing settings) progress.duration progress.beatCount)).map
        (Event.raise n) := by
    simp only [List.map_map]
    rfl
  have hremarks (findings : List Finding) :
      (findings.map (Finding.raise n)).map (.located · (progress.raise n).place) =
      (findings.map (.located · progress.place)).map (Remark.raise n) := by
    simp only [List.map_map]
    rfl
  have hpending (tied : List Pending) (ids : List Nat) (sounds : List Sound) :
      tied.map (Pending.raise n) ++ List.zipWith Pending.ofSound ids (sounds.map (Sound.raise n)) =
        (tied ++ List.zipWith Pending.ofSound ids sounds).map (Pending.raise n) := by
    rw [List.map_append, List.map_zipWith, List.zipWith_map_right]
    rfl
  unfold play
  dsimp only
  rw [hread, htiming]
  dsimp only [PitchReading.raise]
  rw [Session.record_raise, Session.tieOver_raise, excesses_raise, ← List.map_append, hremarks]
  rcases (s.record (note.read stage settings s.trace).tones).tieOver (note.timing settings)
    (note.read stage settings s.trace).sounds with ⟨s₁, tied, sounds⟩
  dsimp only
  rw [hfresh, hrevise, hrevise, Session.startAll_raise, hpending]
  rfl

end Note

end Rendition
