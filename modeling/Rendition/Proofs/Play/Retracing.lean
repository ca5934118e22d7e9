import Mathlib.Data.List.Rotate
import Rendition.Proofs.Number.Laws
import Rendition.Proofs.Play.Tracing
import Rendition.Proofs.Sound.Transposition

namespace Rendition

/-- A note that asks for what has been recorded, just as it was. Lengths and staccato do not
matter. -/
def Note.Retraces (note : Note) : Prop :=
  note.pitches = [{ degree := .retrace }] ∧ note.shifts = "" ∧ note.dynamics = ""

def Note.Pitched (note : Note) : Prop := ∀ pitch ∈ note.pitches, pitch.degree ≠ .unpitched

instance (note : Note) : Decidable note.Retraces := inferInstanceAs (Decidable (_ ∧ _))

instance (note : Note) : Decidable note.Pitched :=
  inferInstanceAs (Decidable (∀ pitch ∈ note.pitches, _))

/-- Notes that retrace, and symbols between them that change neither the settings nor
what has been recorded. -/
def Symbol.Retraces : Symbol → Prop
  | .note played => played.Retraces
  | .call .. | .phrase .. | .theme _ => False
  | .tie | .barLine _ | .clef _ | .comment _ | .space | .marking _ => True

/-- The entry is what a note that retraces recalls: it finds one, records it again and sounds it in
the voices of the key. -/
structure Note.Replays (note : Note) (stage : Stage) (settings : Settings) (s : Session)
    (entry : List Tone) : Prop where
  finds : ∀ progress, ∀ remark ∈ (note.play stage settings s progress).1.remarks, ∀ expected actual,
    remark.finding ≠ .noPrevious expected actual
  records : ∀ progress, (note.play stage settings s progress).2.1.trace = s.trace ++ [entry]
  sounds : (note.read stage settings s.trace).sounds = entry.flatMap (WrittenPitch.voices settings)

namespace WrittenPitch

theorem replay_plain {context : PitchContext} (hshifts : context.shifts = "")
    (hdynamics : context.dynamics = "") (tone : Tone) :
    replay { degree := .retrace } context tone = tone := by
  have hgain : gain { degree := .retrace } context = 1 := by
    rw [gain, hdynamics]
    exact Number.mul_one 1
  have hdelta : delta { degree := .retrace } context = 0 := by
    rw [delta, hshifts]
    rfl
  have hshift : tone.shift 0 = tone := by
    rw [Tone.shift, Semitones.add_zero]
  unfold replay
  rw [hgain, hdelta, hshift, ite_self, Number.mul_one]

theorem sounds_eq_voices {pitch : WrittenPitch} (h : pitch.degree ≠ .unpitched)
    (context : PitchContext) :
    (pitch.read context).sounds = (pitch.read context).tones.flatMap (voices context.settings) := by
  unfold read
  split
  · rfl
  next hdegree => exact absurd hdegree h
  · split <;> rfl

end WrittenPitch

namespace Note

variable {note : Note} {stage : Stage} {settings : Settings} {trace : Trace} {entry : List Tone}

theorem sounds_eq_voices (h : note.Pitched) (stage : Stage) (settings : Settings) (trace : Trace) :
    (note.read stage settings trace).sounds =
      (note.read stage settings trace).tones.flatMap (WrittenPitch.voices settings) := by
  simp only [read, List.flatMap_map, List.flatMap_assoc]
  exact List.flatMap_congr fun pitch hmem ↦ WrittenPitch.sounds_eq_voices (h pitch hmem) _

theorem read_retrace (h : note.Retraces)
    (hrecalled : WrittenPitch.recalled? (note.context stage settings trace) = .ok entry) :
    note.read stage settings trace =
      { sounds := entry.flatMap (WrittenPitch.voices settings)
        tones := entry
        findings := [] } := by
  obtain ⟨hpitches, hshifts, hdynamics⟩ := h
  have hreplay :
      entry.map (WrittenPitch.replay { degree := .retrace } (note.context stage settings trace)) =
      entry := by
    refine (List.map_congr_left fun tone _ ↦ ?_).trans (List.map_id entry)
    exact WrittenPitch.replay_plain hshifts hdynamics tone
  have htones : WrittenPitch.tones { degree := .retrace } (note.context stage settings trace) =
      .ok entry := by
    rw [WrittenPitch.tones]
    simp only [hrecalled]
    exact congrArg Except.ok hreplay
  have hread : WrittenPitch.read { degree := .retrace } (note.context stage settings trace) =
      { sounds := entry.flatMap (WrittenPitch.voices settings)
        tones := entry
        findings := [] } := by
    rw [WrittenPitch.read]
    simp only [htones]
    rfl
  simp only [read, hpitches, List.map_cons, List.map_nil, hread, List.flatMap_cons,
    List.flatMap_nil, List.append_nil]

theorem ne_noPrevious_of_mem_excesses {sounds : List Sound} {finding : Finding}
    (h : finding ∈ excesses sounds) (expected actual : Nat) :
    finding ≠ .noPrevious expected actual := by
  unfold excesses at h
  dsimp only at h
  obtain h | h := List.mem_append.mp h <;> split at h
  · cases h
  · obtain rfl := List.mem_singleton.mp h
    exact Finding.noConfusion
  · cases h
  · obtain rfl := List.mem_singleton.mp h
    exact Finding.noConfusion

theorem play_trace (note : Note) (stage : Stage) (settings : Settings) (s : Session)
    (progress : Progress) :
    (note.play stage settings s progress).2.1.trace =
      s.trace ++ [(note.read stage settings s.trace).tones].filter (!·.isEmpty) := by
  let scope : Scope := { settings, progress, marks := ∅, traceStart := 0, nested := false }
  exact (scope.noted_trace stage s note).trans (s.record_trace _)

theorem Retraces.replays (h : note.Retraces) {s : Session} (hne : entry ≠ [])
    (hrecalled : WrittenPitch.recalled? (note.context stage settings s.trace) = .ok entry) :
    note.Replays stage settings s entry := by
  have hread := read_retrace h hrecalled
  refine ⟨?_, ?_, by rw [hread]⟩
  · intro progress remark hmem expected actual
    obtain ⟨finding, hfinding, rfl⟩ := List.mem_map.mp hmem
    rw [hread] at hfinding
    exact ne_noPrevious_of_mem_excesses hfinding expected actual
  · intro progress
    rw [play_trace, hread, List.filter_cons_of_pos (by simpa using hne), List.filter_nil]

end Note

/-- The trace ends in the entries of the cycle, beginning with the one whose turn it is once some
have been replayed. -/
def Session.Cycles (s : Session) (cycle : Trace) (replayed : Nat) : Prop :=
  ∃ past, s.trace = past ++ cycle.rotate replayed

section Cycles

variable {s s' : Session} {cycle : Trace} {replayed : Nat} {entry : List Tone}

theorem WrittenPitch.recalled_of_cycles {context : PitchContext} (h : s.Cycles cycle replayed)
    (htrace : context.trace = s.trace) (hlength : cycle.length = context.settings.trace)
    (hentry : cycle[replayed % cycle.length]? = some entry) : recalled? context = .ok entry := by
  obtain ⟨past, hpast⟩ := h
  have hpos : 0 < cycle.length :=
    Nat.lt_of_le_of_lt (Nat.zero_le _) (List.getElem?_eq_some_iff.mp hentry).1
  have hrecorded : context.trace.length = past.length + cycle.length := by
    rw [htrace, hpast, List.length_append, List.length_rotate]
  have hget : context.trace[past.length]? = some entry := by
    rw [htrace, hpast, List.getElem?_append_right (Nat.le_refl _), Nat.sub_self,
      List.getElem?_rotate hpos, Nat.zero_add, hentry]
  unfold recalled?
  simp only [← hlength, hrecorded]
  rw [if_neg (by omega), Nat.add_sub_cancel, hget]
  rfl

theorem Session.Cycles.succ (h : s.Cycles cycle replayed)
    (hentry : cycle[replayed % cycle.length]? = some entry) (hs : s'.trace = s.trace ++ [entry]) :
    s'.Cycles cycle (replayed + 1) := by
  obtain ⟨past, hpast⟩ := h
  have hpos : 0 < cycle.length :=
    Nat.lt_of_le_of_lt (Nat.zero_le _) (List.getElem?_eq_some_iff.mp hentry).1
  have hhead : (cycle.rotate replayed)[0]? = some entry := by
    rw [List.getElem?_rotate hpos, Nat.zero_add, hentry]
  obtain ⟨rest, hrest⟩ : ∃ rest, cycle.rotate replayed = entry :: rest := by
    cases hc : cycle.rotate replayed with
    | nil => rw [hc] at hhead; cases hhead
    | cons first rest =>
      rw [hc] at hhead
      obtain rfl := Option.some.inj hhead
      exact ⟨rest, rfl⟩
  refine ⟨past ++ [entry], ?_⟩
  rw [hs, hpast, ← List.rotate_rotate, hrest, List.rotate_cons_succ, List.rotate_zero]
  simp

end Cycles

namespace Scope

variable (stage : Stage) (player : Player) {scope : Scope} {s : Session} {cycle : Trace}
  {replayed : Nat}

theorem replays_of_cycles (h : s.Cycles cycle replayed) (hcycle : ∀ entry ∈ cycle, entry ≠ [])
    (hne : cycle ≠ []) (hlength : cycle.length = scope.settings.trace) {note : Note}
    (hnote : note.Retraces) :
    ∃ entry, cycle[replayed % cycle.length]? = some entry ∧
    note.Replays stage scope.settings s entry := by
  have hlt : replayed % cycle.length < cycle.length := Nat.mod_lt _ (List.length_pos_of_ne_nil hne)
  have hentry : cycle[replayed % cycle.length]? = some cycle[replayed % cycle.length] :=
    List.getElem?_eq_getElem hlt
  have hrecalled : WrittenPitch.recalled? (note.context stage scope.settings s.trace) = .ok _ :=
    WrittenPitch.recalled_of_cycles h rfl hlength hentry
  exact ⟨_, hentry, hnote.replays (hcycle _ (List.getElem_mem hlt)) hrecalled⟩

theorem playSymbol_cycles (h : s.Cycles cycle replayed) (hcycle : ∀ entry ∈ cycle, entry ≠ [])
    (hne : cycle ≠ []) (hlength : cycle.length = scope.settings.trace) {symbol : Symbol}
    (hs : symbol.Retraces) :
    ∃ scope' s', outcome (scope.playSymbol stage player symbol) s = some (.ok scope', s') ∧
      scope'.settings = scope.settings ∧ s'.Cycles cycle
        (replayed + if symbol.isNote then 1 else 0) := by
  cases symbol with
  | note note =>
    obtain ⟨entry, hentry, hreplays⟩ := replays_of_cycles stage h hcycle hne hlength hs
    exact ⟨_, _, scope.outcome_note stage player s note, rfl,
      h.succ hentry (hreplays.records scope.progress)⟩
  | barLine bar => exact ⟨_, s, rfl, (scope.playBarLine_recounts bar).settings, h⟩
  | tie | marking | clef | comment | space => exact ⟨_, _, rfl, rfl, h⟩
  | call | phrase | theme => exact hs.elim

theorem playFrom_cycles (index : Nat) (hcycle : ∀ entry ∈ cycle, entry ≠ []) (hne : cycle ≠ [])
    {symbols : List Symbol} (hs : ∀ symbol ∈ symbols, symbol.Retraces) (h : s.Cycles cycle replayed)
    (hlength : cycle.length = scope.settings.trace) :
    ∃ scope' s', outcome (scope.playFrom stage player index symbols) s = some (.ok scope', s') ∧
      scope'.settings = scope.settings ∧
      s'.Cycles cycle (replayed + symbols.countP Symbol.isNote) := by
  induction symbols generalizing index scope s replayed with
  | nil => exact ⟨scope, s, rfl, rfl, h⟩
  | cons symbol rest ih =>
    obtain ⟨hsymbol, hrest⟩ := List.forall_mem_cons.mp hs
    have hindex : cycle.length = (scope.atIndex index).settings.trace := hlength
    obtain ⟨scope₁, s₁, hplayed, hsettings, hcycles⟩ :=
      playSymbol_cycles stage player h hcycle hne hindex hsymbol
    obtain ⟨scope', s', hplayed', hsettings', hcycles'⟩ :=
      ih (index + 1) hrest hcycles (hlength.trans (congrArg Settings.trace hsettings.symm))
    refine ⟨scope', s', ?_, hsettings'.trans hsettings, ?_⟩
    · rw [outcome_playFrom_cons, hplayed]
      exact hplayed'
    · rw [List.countP_cons, Nat.add_comm (rest.countP _), ← Nat.add_assoc]
      exact hcycles'

theorem replays_after (index : Nat) (hcycle : ∀ entry ∈ cycle, entry ≠ []) (hne : cycle ≠ [])
    {past : Trace} (htrace : s.trace = past ++ cycle)
    (hlength : cycle.length = scope.settings.trace) {before : List Symbol}
    (hbefore : ∀ symbol ∈ before, symbol.Retraces) {note : Note} (hnote : note.Retraces) :
    ∃ scope' s' entry, outcome (scope.playFrom stage player index before) s =
      some (.ok scope', s') ∧
      scope'.settings = scope.settings ∧
      cycle[before.countP Symbol.isNote % cycle.length]? = some entry ∧
      note.Replays stage scope.settings s' entry := by
  have hstart : s.Cycles cycle 0 := ⟨past, by rw [htrace, List.rotate_zero]⟩
  obtain ⟨scope', s', hplayed, hsettings, hcycles⟩ :=
    playFrom_cycles stage player index hcycle hne hbefore hstart hlength
  rw [Nat.zero_add] at hcycles
  obtain ⟨entry, hentry, hreplays⟩ := replays_of_cycles stage hcycles hcycle hne hlength hnote
  exact ⟨scope', s', entry, hplayed, hsettings, hentry, hreplays⟩

end Scope

/-- Notes that retrace play the last entries recorded before them over and over, as many as
the settings look back to. They sound as any note does under the same settings that those
entries have been recorded of; so where the settings look back to the last entry only, they
repeat the last note. -/
theorem retraced_notes_cycle {stage : Stage} {player : Player} {scope : Scope} {index : Nat}
    {before : List Symbol} (hbefore : ∀ symbol ∈ before, symbol.Retraces) {note : Note}
    (hnote : note.Retraces) :
    (∀ (s : Session) (past cycle : Trace), s.trace = past ++ cycle →
      cycle.length = scope.settings.trace → cycle ≠ [] →
      (∀ entry ∈ cycle, entry ≠ []) →
      ∃ scope' s' entry, outcome (scope.playFrom stage player index before) s =
        some (.ok scope', s') ∧
        scope'.settings = scope.settings ∧
        cycle[before.countP Symbol.isNote % cycle.length]? = some entry ∧
        note.Replays stage scope.settings s' entry ∧
        ∀ (heard : Note) (trace : Trace), heard.Pitched →
        (heard.read stage scope.settings trace).tones = entry →
          (note.read stage scope.settings s'.trace).sounds =
            (heard.read stage scope.settings trace).sounds) ∧
    ∀ (s : Session) (heard : Note), scope.settings.trace = 1 → heard.Pitched →
      (heard.read stage scope.settings s.trace).sounds ≠ [] →
      ∃ scope' s', outcome (scope.playFrom stage player index (.note heard :: before)) s =
        some (.ok scope', s') ∧
        scope'.settings = scope.settings ∧
        (note.read stage scope.settings s'.trace).sounds =
          (heard.read stage scope.settings s.trace).sounds := by
  constructor
  · intro s past cycle htrace hlength hne hcycle
    obtain ⟨scope', s', entry, hplayed, hsettings, hentry, hreplays⟩ :=
      Scope.replays_after stage player index hcycle hne htrace hlength hbefore hnote
    refine ⟨scope', s', entry, hplayed, hsettings, hentry, hreplays, ?_⟩
    intro heard trace hpitched htones
    rw [hreplays.sounds, heard.sounds_eq_voices hpitched, htones]
  · intro s heard hdepth hpitched hsounds
    have hheard := heard.sounds_eq_voices hpitched stage scope.settings s.trace
    have htones : (heard.read stage scope.settings s.trace).tones ≠ [] := by
      intro hnil
      rw [hheard, hnil] at hsounds
      exact hsounds rfl
    -- The note that is heard leaves an entry of its own, which is all that the
    -- settings look back to.
    have htrace : ((scope.atIndex index).noted stage s heard).2.trace =
        s.trace ++ [(heard.read stage scope.settings s.trace).tones] := by
      have hplayed := heard.play_trace stage scope.settings s (scope.atIndex index).progress
      rwa [List.filter_cons_of_pos (by simpa using htones), List.filter_nil] at hplayed
    have hlength : List.length [(heard.read stage scope.settings s.trace).tones] =
        ((scope.atIndex index).noted stage s heard).1.settings.trace := hdepth.symm
    obtain ⟨scope', s', entry, hplayed, hsettings, hentry, hreplays⟩ :=
      Scope.replays_after stage player (index + 1) (List.forall_mem_singleton.mpr htones)
        (List.cons_ne_nil _ _) htrace hlength hbefore hnote
    have hentry : (heard.read stage scope.settings s.trace).tones = entry := by
      rw [List.length_singleton, Nat.mod_one] at hentry
      exact Option.some.inj hentry
    refine ⟨scope', s', ?_, hsettings, ?_⟩
    · rw [Scope.outcome_playFrom_cons, Scope.outcome_note]
      exact hplayed
    · rw [hheard, hentry]
      exact hreplays.sounds

namespace Ostinato

def retrace : Note := { pitches := [{ degree := .retrace }] }

def before : List Symbol :=
  [.note retrace, .tie, .note { retrace with lengths := "_" }, .barLine {}, .note retrace]

def cycle : Trace := [[⟨4, 0.5, false⟩], [⟨60, 1, true⟩, ⟨7, 0.25, false⟩]]

def passage (depth : Nat) : Scope where
  settings := { key := [0, 12], volume := [1, 0.5], trace := depth }
  marks := ∅
  traceStart := 0
  nested := false

def sounds : List Sound := [⟨some 60, 1, true⟩, ⟨some 7, 0.25, false⟩, ⟨some 19, 0.125, false⟩]

def third : Note := { pitches := [{ degree := .scale 3, dynamics := ">" }] }

end Ostinato

theorem retraced_notes_cycle_ostinato :
    (∃ scope' s', outcome ((Ostinato.passage 2).playFrom ⟨.standard, ∅⟩ (playerOf ⟨.standard, ∅⟩ 0)
      0 Ostinato.before)
        { trace := [⟨0, 1, false⟩] :: Ostinato.cycle } = some (.ok scope', s') ∧
      (Ostinato.retrace.read ⟨.standard, ∅⟩ (Ostinato.passage 2).settings s'.trace).sounds =
        Ostinato.sounds) ∧
    ∃ scope' s', outcome ((Ostinato.passage 1).playFrom ⟨.standard, ∅⟩ (playerOf ⟨.standard, ∅⟩ 0) 0
        (.note Ostinato.third :: Ostinato.before)) {} = some (.ok scope', s') ∧
      (Ostinato.retrace.read ⟨.standard, ∅⟩ (Ostinato.passage 1).settings s'.trace).sounds =
        [⟨some 4, 2, false⟩, ⟨some 16, 1, false⟩] := by
  have hbefore : ∀ symbol ∈ Ostinato.before, symbol.Retraces := by
    simp [Ostinato.before, Ostinato.retrace, Symbol.Retraces, Note.Retraces]
  have hnote : Ostinato.retrace.Retraces := by decide
  constructor
  · have hcycle : ∀ entry ∈ Ostinato.cycle, entry ≠ [] := by decide
    obtain ⟨scope', s', entry, hplayed, -, hentry, hreplays, -⟩ :=
      (@retraced_notes_cycle ⟨.standard, ∅⟩ (playerOf ⟨.standard, ∅⟩ 0) (Ostinato.passage 2)
        0 _ hbefore _ hnote).1 { trace := [⟨0, 1, false⟩] :: Ostinato.cycle } [[⟨0, 1, false⟩]]
        Ostinato.cycle rfl rfl
          (by decide) hcycle
    refine ⟨scope', s', hplayed, hreplays.sounds.trans ?_⟩
    obtain rfl := Option.some.inj hentry
    decide +kernel
  · obtain ⟨scope', s', hplayed, -, hsounds⟩ :=
      (@retraced_notes_cycle ⟨.standard, ∅⟩ (playerOf ⟨.standard, ∅⟩ 0) (Ostinato.passage 1)
        0 _ hbefore _ hnote).2 {} Ostinato.third rfl (by decide) (by decide +kernel)
    refine ⟨scope', s', hplayed, hsounds.trans ?_⟩
    decide +kernel

end Rendition
