import Rendition.Proofs.Play.Entrances
import Rendition.Proofs.Play.Nesting
import Rendition.Proofs.Play.Recording

namespace Rendition

namespace WrittenPitch

theorem exists_pitched_voice {settings : Settings} (hk : settings.key ≠ []) (tone : Tone) :
    ∃ sound ∈ voices settings tone, sound.pitch.isSome := by
  obtain ⟨offset, rest, hkey⟩ := List.exists_cons_of_ne_nil hk
  unfold voices
  split
  · exact ⟨_, List.mem_singleton_self _, rfl⟩
  · rw [hkey, List.mapIdx_cons]
    exact ⟨_, List.mem_cons_self, rfl⟩

variable (pitch : WrittenPitch) (context : PitchContext)

theorem pitch_of_mem_hits {sound : Sound} (h : sound ∈ pitch.hits context) :
    sound.pitch = none := by
  obtain ⟨voice, -, rfl⟩ := List.mem_map.mp h
  rfl

theorem tones_ne_nil_iff (hk : context.settings.key ≠ []) :
    (pitch.read context).tones ≠ [] ↔ ∃ sound ∈ (pitch.read context).sounds,
    sound.pitch.isSome := by
  unfold read
  split
  · simp
  · refine iff_of_false (fun h ↦ h rfl) ?_
    rintro ⟨sound, hs, hpitch⟩
    rw [pitch_of_mem_hits pitch context hs] at hpitch
    cases hpitch
  · split
    · simp
    · constructor
      · intro htones
        obtain ⟨tone, ht⟩ := List.exists_mem_of_ne_nil _ htones
        obtain ⟨sound, hs, hpitch⟩ := exists_pitched_voice hk tone
        exact ⟨sound, List.mem_flatMap_of_mem ht hs, hpitch⟩
      · rintro ⟨sound, hs, -⟩ htones
        obtain ⟨tone, ht, -⟩ := List.mem_flatMap.mp hs
        exact List.ne_nil_of_mem ht htones

end WrittenPitch

namespace Entrance

variable (stage : Stage) (e : Entrance)

def readings : List PitchReading :=
  e.note.pitches.map (·.read (e.note.context stage e.scope.settings e.session.trace))

def tones : List Tone := (e.readings stage).flatMap PitchReading.tones

def isPitched : Bool := (e.readings stage).any fun reading ↦ reading.sounds.any (·.pitch.isSome)

theorem tones_ne_nil_iff (hk : e.scope.settings.key ≠ []) :
    e.tones stage ≠ [] ↔ e.isPitched stage := by
  have hpitch (pitch : WrittenPitch) := pitch.tones_ne_nil_iff
    (e.note.context stage e.scope.settings e.session.trace) hk
  constructor
  · intro htones
    obtain ⟨tone, ht⟩ := List.exists_mem_of_ne_nil _ htones
    obtain ⟨reading, hreading, ht⟩ := List.mem_flatMap.mp ht
    obtain ⟨pitch, -, rfl⟩ := List.mem_map.mp hreading
    exact List.any_eq_true.mpr ⟨_, hreading,
      List.any_eq_true.mpr ((hpitch pitch).mp (List.ne_nil_of_mem ht))⟩
  · intro hpitched
    obtain ⟨reading, hreading, hsound⟩ := List.any_eq_true.mp hpitched
    obtain ⟨pitch, -, rfl⟩ := List.mem_map.mp hreading
    obtain ⟨tone, ht⟩ :=
      List.exists_mem_of_ne_nil _ ((hpitch pitch).mpr (List.any_eq_true.mp hsound))
    exact List.ne_nil_of_mem (List.mem_flatMap_of_mem hreading ht)

end Entrance

/-- What notes add to the trace: an entry each, except for those without tones. -/
def recorded (stage : Stage) (notes : List Entrance) : Trace :=
  (notes.map (·.tones stage)).filter (!·.isEmpty)

section Recorded

variable (stage : Stage) (notes more : List Entrance)

@[simp] theorem recorded_append : recorded stage (notes ++ more) = recorded stage notes ++
    recorded stage more := by
  simp [recorded]

variable {notes}

theorem length_recorded (hk : ∀ e ∈ notes, e.scope.settings.key ≠ []) :
    (recorded stage notes).length = notes.countP (·.isPitched stage) := by
  rw [recorded, ← List.countP_eq_length_filter, List.countP_map]
  refine List.countP_congr ?_
  intro e he
  rw [← e.tones_ne_nil_iff stage (hk e he)]
  simp

end Recorded

theorem Session.record_trace (s : Session) (tones : List Tone) :
    (s.record tones).trace = s.trace ++ [tones].filter (!·.isEmpty) := by
  unfold record
  split
  next h => simp [h]
  next h => simp [h]

/-- The passages of a player add to the trace what their listed notes add, whether or
not a fault ends them. -/
def Player.Lists (stage : Stage) (player : Player) (inner : Listing) : Prop :=
  ∀ around settings remarks symbols s r s', outcome (player settings remarks symbols) s =
    some (r, s') →
    s'.trace = s.trace ++ recorded stage (inner around settings remarks symbols s)

namespace Scope

variable {stage : Stage} {player : Player} {inner : Listing} {around : List Scope}
  {scope scope' : Scope} {s s' : Session} {name : String} {access : Access} {index : Nat}
  {symbol : Symbol} {symbols : List Symbol}

theorem interludesOf_ofExcept {α : Type} (r : Except Fault α) :
    scope.interludesOf stage player name access (.ofExcept r) s = [] := by
  cases r <;> rfl

theorem playPhrase_full_lists (hplayer : player.Lists stage inner) {phrase : Phrase}
    {overrides : Overrides} {r : Except Fault Passage}
    (h : (scope.playPhrase player phrase overrides .full).run s = some (r, s')) :
    s'.trace = s.trace ++ recorded stage ((Interlude.mk scope s phrase overrides .full).notes inner
      around) := by
  rw [playPhrase_full_run] at h
  exact hplayer _ _ _ _ _ _ _ h

theorem answer_lists (hplayer : player.Lists stage inner) {phrases : List Phrase}
    {script : Script (Option Passage)} (hm : script.Modest phrases)
    {r : Except Fault (Option Passage)}
    (h : (scope.answer stage player name access script).run s = some ((r, scope'), s')) :
    s'.trace = s.trace ++
      recorded stage ((scope.interludesOf stage player name access script s).flatMap
        (·.notes inner around)) := by
  induction hm generalizing scope with
  | done | fail =>
    cases h
    exact (List.append_nil _).symm
  | settings _ ih => exact ih _ h
  | setSettings _ ih =>
    rw [answer_setSettings] at h
    exact ih h
  | @play phrase overrides next hp hnext =>
    rw [answer_play, Option.bind_eq_some_iff] at h
    obtain ⟨⟨u, s₁⟩, hplay, hrest⟩ := h
    have hrun : Interlude.run player ⟨scope, s, phrase, overrides, .full⟩ = some (u, s₁) := hplay
    rw [interludesOf, hrun]
    dsimp only at hrest ⊢
    rw [hnext, interludesOf_ofExcept, List.flatMap_singleton]
    -- What the phrase gives is handed over at once, so nothing is played after it.
    have hlast : s' = s₁ := by
      rw [hnext] at hrest
      cases u <;> cases hrest <;> rfl
    rw [hlast]
    exact playPhrase_full_lists hplayer hplay

theorem symbol_lists (hr : stage.repertoire.OnlyStandard) (hplayer : player.Lists stage inner)
    {r : Except Fault Scope} (h : outcome (scope.playSymbol stage player symbol) s = some (r, s')) :
    s'.trace = s.trace ++ recorded stage (scope.symbolNotes stage player inner around s
      symbol) := by
  cases step_of_outcome h with
  | note note =>
    rw [noted_trace, Session.record_trace]
    simp [symbolNotes, recorded, Entrance.tones, Entrance.readings, Note.read]
  | phrase times content r s₁ hplay =>
    rw [Session.added_trace.take]
    exact hplayer _ _ _ _ _ _ _ hplay
  | theme name content hc ha r s₁ hplay =>
    rw [Session.added_trace.take, symbolNotes, hc]
    simp only [if_neg ha]
    exact hplayer _ _ _ _ _ _ _ hplay
  | undefined name hc =>
    rw [symbolNotes, hc]
    exact (List.append_nil _).symm
  | active name content hc ha =>
    rw [symbolNotes, hc]
    simp only [if_pos ha]
    exact (List.append_nil _).symm
  | unknown name arguments hf =>
    rw [symbolNotes, interludes, hf]
    exact (List.append_nil _).symm
  | formula name arguments function source fault hf hv =>
    rw [symbolNotes, interludes, hf, hv]
    exact (List.append_nil _).symm
  | call name arguments function values hf hv r scope₁ s₁ hanswer =>
    obtain ⟨f, hmem, -, rfl⟩ := hr name function hf
    rw [Session.added_trace.receive, symbolNotes, interludes_eq _ _ hf hv]
    exact answer_lists hplayer (Script.modest_standard f hmem name values) hanswer
  | tie | barLine | marking => exact (List.append_nil _).symm
  | inert _ hs =>
    cases symbol with
    | clef | comment | space => exact (List.append_nil _).symm
    | note | call | phrase | theme | tie | barLine | marking => cases hs

theorem playFrom_lists (hr : stage.repertoire.OnlyStandard) (hplayer : player.Lists stage inner)
    {r : Except Fault Scope}
    (h : outcome (scope.playFrom stage player index symbols) s = some (r, s')) :
    s'.trace = s.trace ++ recorded stage (scope.notesFrom stage player inner around index
      symbols s) := by
  induction symbols generalizing index scope s with
  | nil =>
    cases h
    exact (List.append_nil _).symm
  | cons symbol rest ih =>
    rw [outcome_playFrom_cons, andThen_eq_some] at h
    rw [notesFrom, recorded_append, ← List.append_assoc]
    obtain ⟨fault, hsymbol, -⟩ | ⟨scope₁, s₁, hsymbol, hrest⟩ := h
    · rw [hsymbol, ← symbol_lists hr hplayer hsymbol]
      exact (List.append_nil _).symm
    · rw [hsymbol, ← symbol_lists hr hplayer hsymbol]
      exact ih hrest

end Scope

variable {stage : Stage}

theorem playerOf_lists (hr : stage.repertoire.OnlyStandard) (depth : Nat) :
    (playerOf stage depth).Lists stage (notesOf stage depth) := by
  induction depth with
  | zero => exact fun _ _ _ _ _ _ _ h ↦ nomatch h
  | succ depth ih =>
    intro around settings remarks symbols s r s' h
    rw [outcome_playerOf] at h
    obtain ⟨⟨r₁, s₁⟩, hrun, he⟩ := Option.map_eq_some_iff.mp h
    cases he
    exact Scope.playFrom_lists hr ih hrun

/-- The trace has gained an entry for each of the notes that has tones, a passage gives just
these entries as its trace, and they are as many as the notes with a pitch where every note finds
a voice in the key. -/
structure Records (stage : Stage) (notes : List Entrance) (s s' : Session)
    (passage : Passage) : Prop where
  trace : s'.trace = s.trace ++ recorded stage notes
  passage : passage.progress.trace = recorded stage notes
  length : (∀ e ∈ notes, e.scope.settings.key ≠ []) →
    (recorded stage notes).length = notes.countP (·.isPitched stage)

theorem Records.of_playFrom {notes : List Entrance} {depth index : Nat} {symbols : List Symbol}
    {scope scope' : Scope} {s s' : Session} (hr : stage.repertoire.OnlyStandard)
    (hstart : scope.traceStart = s.trace.length)
    (h : outcome (scope.playFrom stage (playerOf stage depth) index symbols) s = some (.ok scope',
      s')) (htrace : s'.trace = s.trace ++ recorded stage notes) :
      Records stage notes s s' (scope'.conclude s') where
  trace := htrace
  passage := by rw [conclude_trace, (Scope.keeps_playFrom hr h).1, hstart, htrace, List.drop_left]
  length := length_recorded stage

theorem playerOf_records (hr : stage.repertoire.OnlyStandard) {depth : Nat} (around : List Scope)
    {settings : Settings} {remarks : List Remark} {symbols : List Symbol} {s s' : Session}
    {passage : Passage}
    (h : outcome (playerOf stage depth settings remarks symbols) s = some (.ok passage, s')) :
    Records stage (notesOf stage depth around settings remarks symbols s) s s' passage := by
  have htrace := playerOf_lists hr depth around _ _ _ _ _ _ h
  cases depth with
  | zero => cases h
  | succ depth =>
    rw [outcome_playerOf] at h
    obtain ⟨⟨r, s₁⟩, hrun, he⟩ := Option.map_eq_some_iff.mp h
    cases r with
    | error fault => cases he
    | ok scope =>
      cases he
      exact .of_playFrom hr rfl hrun htrace

theorem playTrack_records (hr : stage.repertoire.OnlyStandard) {settings last : Settings}
    {symbols : List Symbol} {s s' : Session} {passage : Passage}
    (h : outcome (playTrack stage settings symbols) s = some (.ok (last, passage), s')) :
    Records stage ((Moment.start stage settings symbols s).notes stage) s s' passage := by
  obtain ⟨scope, hrun, -, rfl⟩ := playTrack_ok h
  exact .of_playFrom hr rfl hrun (Scope.playFrom_lists hr (playerOf_lists hr _) hrun)

section Perform

variable {r : Repertoire}

/-- At every depth and in the track as a whole, the trace records just the pitched notes played, in
the order in which they are played, and a passage knows which of the entries are its own. -/
theorem perform_records_notes (hr : r.OnlyStandard) (instrument : Instrument) :
    (∀ depth around settings remarks symbols s passage s',
      outcome (playerOf (r.stage instrument) depth settings remarks symbols) s =
        some (.ok passage, s') →
        Records (r.stage instrument) (notesOf (r.stage instrument) depth around settings remarks
          symbols s) s s' passage) ∧
      ∀ settings id name content performance,
        perform r settings instrument id name content = some (.ok performance) →
          ∃ last passage s', outcome (playTrack (r.stage instrument) settings
              (instrument.opening ++ content)) (.opening name) = some (.ok (last, passage), s') ∧
            Records (r.stage instrument) ((r.opening settings instrument name content).notes
              (r.stage instrument)) (.opening name) s' passage ∧
            ∃ p : Performance, performance = r.plugins.complete p ∧
              p.progress.trace = s'.trace := by
  have hstandard : (r.stage instrument).repertoire.OnlyStandard := hr
  refine ⟨fun _ around _ _ _ _ _ _ h ↦ playerOf_records hstandard around h, ?_⟩
  intro settings id name content performance h
  rw [perform_eq] at h
  obtain ⟨⟨answer, s'⟩, hplay, he⟩ := Option.map_eq_some_iff.mp h
  cases answer with
  | error fault => cases he
  | ok played =>
    cases he
    have hrecords := playTrack_records hstandard hplay
    exact ⟨_, _, s', hplay, hrecords, _, rfl, hrecords.passage.trans hrecords.trace.symm⟩

end Perform

namespace Retracing

def library : Repertoire where
  functions := Repertoire.standard.functions
  themes :=
    .ofList [("A", [.note { pitches := [{ degree := .unpitched }, { degree := .scale 2 }] }])]

def content : List Symbol :=
  [.note { pitches := [{ degree := .retrace }] }, .note { pitches := [{ degree := .rest }] },
    .phrase 2 [.note { pitches := [{ degree := .scale 1 }] }],
    .note { pitches := [{ degree := .unpitched }] }, .theme "A",
    .call "Transpose" [.number 2, .symbol (.note { pitches := [{ degree := .scale 3 }] })]]

end Retracing

theorem perform_records_notes_retracing :
    ∃ p, perform Retracing.library {} {} "" none Retracing.content =
      some (.ok p) ∧
    p.progress.trace.map (List.map Tone.offset) = [[0], [0], [2], [6]] ∧
    ((Retracing.library.opening {} {} none Retracing.content).notes
      (Retracing.library.stage {})).countP (·.isPitched (Retracing.library.stage {})) = 4 := by
  obtain ⟨p, hp, htrace⟩ :=
    exists_performance (f := fun p ↦ p.progress.trace.map (List.map Tone.offset)) (b := [[0], [0],
      [2], [6]]) (x :=
      perform Retracing.library {} {} "" none Retracing.content) (by decide +kernel)
  obtain ⟨last, passage, s', -, hrecords, q, he, hs⟩ :=
    (@perform_records_notes Retracing.library Repertoire.onlyStandard_standard {}).2 {} "" none
      Retracing.content p hp
  obtain rfl : p = q := he
  refine ⟨p, hp, htrace, ?_⟩
  have hrecorded : p.progress.trace = recorded _ _ := hs.trans hrecords.trace
  rw [← hrecords.length (by decide +kernel), ← hrecorded]
  simpa using congrArg List.length htrace

end Rendition
