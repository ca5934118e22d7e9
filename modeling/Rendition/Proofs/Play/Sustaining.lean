import Mathlib.Data.List.Basic
import Rendition.Proofs.Play.Nesting
import Rendition.Proofs.Play.Still

namespace Rendition

theorem Event.prolong_ofSound (total timing : Timing) (sound : Sound) :
    (Event.ofSound total 0 0 sound).prolong timing = .ofSound (total.add timing) 0 0 sound := rfl

theorem Event.later_ofSound (total : Timing) (sound : Sound) :
    (Event.ofSound total 0 0 sound).later 0 0 = .ofSound total 0 0 sound := by
  have hzero : (0 : Float) + 0 = 0 := by decide +kernel
  simp only [later, ofSound, hzero]

theorem WrittenPitch.sounds_read {pitch : WrittenPitch} (h : pitch.degree ≠ .retrace)
    (context : PitchContext) (trace : Trace) : (pitch.read { context with trace }).sounds =
      (pitch.read context).sounds := by
  obtain ⟨degree, shifts, chords, dynamics⟩ := pitch
  cases degree with
  | retrace => exact absurd rfl h
  | rest | unpitched | scale | named => rfl

theorem Note.sounds_read {note note' : Note} (hpitches : note'.pitches = note.pitches)
    (hshifts : note'.shifts = note.shifts) (hdynamics : note'.dynamics = note.dynamics)
    (hreplay : ∀ pitch ∈ note.pitches, pitch.degree ≠ .retrace) (stage : Stage)
    (settings : Settings) (trace trace' : Trace) :
    (note'.read stage settings trace').sounds = (note.read stage settings trace).sounds := by
  simp only [read, List.flatMap_map, hpitches]
  refine List.flatMap_congr fun pitch hmem ↦ ?_
  have hcontext : note'.context stage settings trace' =
      { note.context stage settings trace with trace := trace' } := by
    rw [context, context, hshifts, hdynamics]
  rw [hcontext]
  exact WrittenPitch.sounds_read (hreplay pitch hmem) _ _

theorem Pending.pair_self {ids : List Nat} {sounds : List Sound}
    (hlength : ids.length = sounds.length) (hv : ∀ sound ∈ sounds, sound.volume.isNaN = false) :
    pair (List.zipWith .ofSound ids sounds) sounds = (List.zipWith .ofSound ids sounds, []) := by
  induction sounds generalizing ids with
  | nil => rw [List.zipWith_nil_right, pair]
  | cons sound rest ih =>
    obtain ⟨id, ids, rfl⟩ := List.exists_cons_of_length_eq_add_one hlength
    obtain ⟨hsound, hrest⟩ := List.forall_mem_cons.mp hv
    have hself := Pending.ofSound_continues id hsound
    rw [List.zipWith_cons_cons, pair, if_pos (by rw [List.any_cons, hself, Bool.true_or]),
      List.eraseP_cons_of_pos hself, ih (Nat.succ.inj hlength) hrest]

namespace Session

theorem prolongAll_each (s : Session) (timing : Timing) {ties : List Pending}
    (h : ties.map Pending.event = List.range s.events.size) :
    (s.prolongAll timing ties).events.toList = s.events.toList.map (·.prolong timing) := by
  refine List.ext_getElem? fun id ↦ ?_
  rw [List.getElem?_map, Array.getElem?_toList, Array.getElem?_toList]
  by_cases hid : id < s.events.size
  · exact prolongAll_of_mem s timing (h ▸ List.nodup_range) (h ▸ List.mem_range.mpr hid)
  · have hnone : s.events[id]? = none := Array.getElem?_eq_none (Nat.not_lt.mp hid)
    rw [prolongAll_of_notMem s timing (h ▸ mt List.mem_range.mp hid), hnone]
    rfl

theorem later_eq_self (s : Session) (ids : List Nat) {time beats : Float}
    (h : ∀ e ∈ s.events.toList, e.later time beats = e) : s.later ids time beats = s := by
  have hrevise : ∀ id, s.revise id (·.later time beats) = s := by
    intro id
    have hevents : s.events.modify id (·.later time beats) = s.events := by
      refine Array.ext_getElem? fun i ↦ ?_
      rw [Array.getElem?_modify]
      split
      · cases he : s.events[i]? with
        | none => rfl
        | some e => exact congrArg some (h e (Array.mem_toList_iff.mpr (Array.mem_of_getElem? he)))
      · rfl
    rw [revise, hevents]
  induction ids with
  | nil => rfl
  | cons id ids ih => rw [later_cons, hrevise, ih]

end Session

/-- Sounds have gone on for some time, each in an event that a tie may prolong. -/
structure Session.Sustains (sounds : List Sound) (total : Timing) (s : Session) : Prop where
  events : s.events.toList = sounds.map (.ofSound total 0 0)
  pending : s.pending = List.zipWith .ofSound (List.range sounds.length) sounds

namespace Scope

variable {stage : Stage} {scope : Scope} {s : Session} {note : Note} {sounds : List Sound}
  (hread : (note.read stage scope.settings s.trace).sounds = sounds)
include hread

theorem noted_untied (hp : stage.repertoire.plugins = ∅) (hs : scope.progress.Still [])
    (he : s.events = #[]) (ht : s.tieLeft = false) :
    (scope.noted stage s note).2.Sustains sounds (note.timing scope.settings) ∧
      scope.started stage s note = List.range sounds.length := by
  have htied : note.tied stage scope.settings s = ([], sounds) := by
    rw [Note.tied, ht, hread]
    rfl
  have hfresh : note.fresh stage scope.settings s scope.progress =
      sounds.map (.ofSound (note.timing scope.settings) 0 0) := by
    rw [Note.fresh, htied, hp, hs.duration, hs.beatCount]
    rfl
  have hstarted : scope.started stage s note = List.range sounds.length := by
    rw [started, hfresh, he, List.length_map, List.range_eq_range']
    rfl
  have hbase : (scope.noteBase stage s note).events = #[] :=
    Array.eq_empty_of_size_eq_zero (by rw [noteBase_size, he]; rfl)
  refine ⟨⟨?_, ?_⟩, hstarted⟩
  · rw [noted_snd, hbase, hfresh]
    simp
  · rw [noted_snd, hstarted, htied]
    rfl

theorem noted_tied {total : Timing} (hp : stage.repertoire.plugins = ∅)
    (hs : s.Sustains sounds total) (ht : s.tieLeft = true)
    (hv : ∀ sound ∈ sounds, sound.volume.isNaN = false) :
    (scope.noted stage s note).2.Sustains sounds (total.add (note.timing scope.settings)) ∧
      scope.started stage s note = [] := by
  have htied : note.tied stage scope.settings s = (s.pending, []) := by
    rw [Note.tied, ht, hread, if_pos rfl, hs.pending, Pending.pair_self List.length_range hv]
  have hfresh : note.fresh stage scope.settings s scope.progress = [] := by
    rw [Note.fresh, htied, hp]
    rfl
  have hsize : s.events.size = sounds.length := by
    rw [← Array.length_toList, hs.events, List.length_map]
  have hevents : ∀ tones, s.pending.map Pending.event =
      List.range (s.record tones).events.size := by
    intro tones
    rw [Session.record_events, hsize, hs.pending, Pending.map_event List.length_range]
  have hstarted : scope.started stage s note = [] := by
    rw [started, hfresh]
    rfl
  refine ⟨⟨?_, ?_⟩, hstarted⟩
  · rw [noted_snd, hfresh, noteBase, htied]
    simp only [Array.toList_append, List.append_nil]
    rw [Session.prolongAll_each _ _ (hevents _), Session.record_events, hs.events, List.map_map]
    exact List.map_congr_left fun sound _ ↦ Event.prolong_ofSound total _ sound
  · rw [noted_snd, hstarted, htied, ← hs.pending]
    simp

end Scope

/-- Some of the symbols that follow one another have been put into phrases, again and again. -/
inductive Grouped : List Symbol → List Symbol → Prop
  | nil : Grouped [] []
  | keep (symbol : Symbol) {flat grouped : List Symbol} (h : Grouped flat grouped) :
      Grouped (symbol :: flat) (symbol :: grouped)
  | group {part content flat grouped : List Symbol} (hc : Grouped part content)
      (h : Grouped flat grouped) :
      Grouped (part ++ flat) (.phrase (-1) content :: grouped)

theorem Grouped.mem {flat grouped : List Symbol} (h : Grouped flat grouped) {symbol : Symbol}
    (hmem : symbol ∈ grouped) : symbol ∈ flat ∨ ∃ content, symbol = .phrase (-1) content := by
  induction h with
  | nil => cases hmem
  | keep first _ ih =>
    obtain rfl | hmem := List.mem_cons.mp hmem
    · exact .inl List.mem_cons_self
    · exact (ih hmem).imp_left (List.mem_cons_of_mem first)
  | @group part content flat grouped _ _ _ ih =>
    obtain rfl | hmem := List.mem_cons.mp hmem
    · exact .inr ⟨content, rfl⟩
    · exact (ih hmem).imp_left (List.mem_append_right part)

section

variable {settings : Settings} {sounds : List Sound} {notes past past' past'' : List Note}
  {s s' : Session}

namespace Chain

def links (notes : List Note) : List Symbol := notes.flatMap fun note ↦ [.tie, .note note]

theorem links_cons (note : Note) (more : List Note) :
    links (note :: more) = .tie :: .note note :: links more := rfl

/-- How long notes take that are tied together. -/
def span (settings : Settings) (first : Note) (more : List Note) : Timing :=
  (first.timing settings).total (more.map (·.timing settings))

theorem span_append (settings : Settings) (first : Note) (more : List Note) (last : Note) :
    span settings first (more ++ [last]) =
      (span settings first more).add (last.timing settings) := by
  rw [span, List.map_append]
  exact Timing.total_append _ _ _

/-- What the notes of a chain that have been played have left. -/
def Sounding (settings : Settings) (sounds : List Sound) : List Note → Session → Prop
  | [], s => s.events = #[] ∧ s.tieLeft = false
  | first :: more, s => s.Sustains sounds (span settings first more)

def placed (sounds : List Sound) : List Note → List Nat
  | [] => []
  | _ :: _ => List.range sounds.length

/-- Some notes of a chain have been played, and the rest is still to come as the given symbols. -/
inductive Awaits (settings : Settings) (sounds : List Sound) (notes : List Note) :
    List Note → List Symbol → Session → Prop
  | first {first : Note} {more : List Note} {s : Session} (he : first :: more = notes)
      (hs : Sounding settings sounds [] s) : Awaits settings sounds notes []
        (.note first :: links more) s
  | tie {past more : List Note} {s : Session} (he : past ++ more = notes) (hne : past ≠ [])
      (hs : Sounding settings sounds past s) : Awaits settings sounds notes past (links more) s
  | link {past more : List Note} {next : Note} {s : Session} (he : past ++ next :: more = notes)
      (hne : past ≠ []) (hs : Sounding settings sounds past s) (ht : s.tieLeft = true) :
      Awaits settings sounds notes past (.note next :: links more) s

theorem Awaits.sounding {todo : List Symbol} (h : Awaits settings sounds notes past todo s) :
    Sounding settings sounds past s := by
  cases h with
  | first _ hs | tie _ _ hs | link _ _ hs _ => exact hs

theorem Awaits.no_bars {todo : List Symbol} (h : Awaits settings sounds notes past todo s)
    (bar : BarLine) :
    Symbol.barLine bar ∉ todo := by
  have hlinks : ∀ more : List Note, Symbol.barLine bar ∉ links more := by
    intro more hmem
    obtain ⟨note, -, hpair⟩ := List.mem_flatMap.mp hmem
    simp at hpair
  cases h with
  | first _ _ | link _ _ _ _ => exact fun hmem ↦ (List.mem_cons.mp hmem).elim nofun (hlinks _)
  | tie _ _ _ => exact hlinks _

theorem Awaits.past_eq (h : Awaits settings sounds notes past [] s) : past = notes := by
  generalize htodo : [] = todo at h
  cases h with
  | first | link => cases htodo
  | @tie _ more _ he =>
    cases more with
    | nil => exact (List.append_nil past).symm.trans he
    | cons note more => cases htodo

theorem Sounding.later_zero (h : Sounding settings sounds past s) (ids : List Nat) :
    s.later ids 0 0 = s := by
  refine s.later_eq_self ids fun e he ↦ ?_
  cases past with
  | nil =>
    rw [h.1] at he
    cases he
  | cons first more =>
    rw [h.events] at he
    obtain ⟨sound, -, rfl⟩ := List.mem_map.mp he
    exact Event.later_ofSound _ sound

end Chain

open Chain

/-- What a scope gains by more notes of a chain: the events that the first of them starts. The clock
stands still until then. -/
structure Scope.Gains (sounds : List Sound) (past past' : List Note)
    (scope scope' : Scope) : Prop where
  settings : scope'.settings = scope.settings
  events : ∃ added, scope'.events = scope.events ++ added ∧
    placed sounds past ++ added = placed sounds past'
  begun : past' = [] → past = []
  still : past' = [] → scope.progress.Still [] → scope'.progress.Still []

namespace Scope

theorem Gains.trans {scope scope' scope'' : Scope} (h : Gains sounds past past' scope scope')
    (h' : Gains sounds past' past'' scope' scope'') : Gains sounds past past'' scope scope'' where
  settings := h'.settings.trans h.settings
  events := by
    obtain ⟨added, he, hplaced⟩ := h.events
    obtain ⟨added', he', hplaced'⟩ := h'.events
    exact ⟨added ++ added',
      by rw [he', he, List.append_assoc], by rw [← List.append_assoc, hplaced, hplaced']⟩
  begun := h.begun ∘ h'.begun
  still he hs := h'.still he (h.still (h'.begun he) hs)

theorem gains_atIndex (scope : Scope) (index : Nat) :
    Gains sounds past past scope (scope.atIndex index) where
  settings := rfl
  events := ⟨[], (List.append_nil _).symm, List.append_nil _⟩
  begun := id
  still _ hs := still_atIndex hs index

theorem gains_refl (scope : Scope) : Gains sounds past past scope scope where
  settings := rfl
  events := ⟨[], (List.append_nil _).symm, List.append_nil _⟩
  begun := id
  still _ hs := hs

theorem gains_noted {stage : Stage} {note : Note} (scope : Scope) (hne : past' ≠ [])
    (h : placed sounds past ++ scope.started stage s note = placed sounds past') :
    Gains sounds past past' scope (scope.noted stage s note).1 where
  settings := rfl
  events := ⟨_, noted_events scope stage s note, h⟩
  begun he := absurd he hne
  still he := absurd he hne

theorem playFrom_body_of_ok {stage : Stage} {player : Player} {scope scope' : Scope}
    {content : List Symbol}
    (h : outcome (scope.playFrom stage player 0 content) s = some (.ok scope', s')) :
    ∃ scope'', outcome (scope.playFrom stage player 0 (Repetition.body content (-1))) s =
      some (.ok scope'', s') ∧
      scope''.events = scope'.events ∧ (scope'.progress.Still [] → scope''.progress.Still []) := by
  unfold Repetition.body
  split
  · refine ⟨(scope'.atIndex (0 + content.length)).playBarLine {}, ?_, ?_, fun hs ↦ ?_⟩
    · rw [outcome_playFrom_append, h]
      rfl
    · exact (playBarLine_recounts _ _).events
    · exact still_playBarLine (still_atIndex hs _) _
  · exact ⟨scope', h, rfl, id⟩

/-- A passage of a chain is added without moving events: only the passage that the chain begins in
has any, and it is added at the beginning. -/
theorem playPhrase_chain {stage : Stage} (scope : Scope) {inner : Scope} {content : List Symbol}
    {depth : Nat} (hbars : ∀ bar, Symbol.barLine bar ∉ content)
    (hstill : past = [] → scope.progress.Still [])
    (hrun : outcome ((Scope.begin stage s scope.settings []).playFrom stage (playerOf stage depth) 0
      content) s = some (.ok inner, s'))
    (hpast' : Sounding settings sounds past' s')
    (hgains : Gains sounds past past' (.begin stage s scope.settings []) inner) :
    ∃ scope', outcome (scope.playSymbol stage (playerOf stage (depth + 1)) (.phrase (-1) content))
      s = some (.ok scope', s') ∧ Gains sounds past past' scope scope' := by
  obtain ⟨inner', hbody, hevents, hinner⟩ := playFrom_body_of_ok hrun
  obtain ⟨added, hadded, hplaced⟩ := hgains.events
  have hpassage : (inner'.conclude s').events = added := by
    rw [conclude_events, hevents, hadded]
    rfl
  have hlater : (scope.add stage (inner'.conclude s') s').2 = s' := by
    change s'.later (inner'.conclude s').events scope.progress.duration scope.progress.beatCount =
      s'
    by_cases hpast : past = []
    · rw [(hstill hpast).duration, (hstill hpast).beatCount]
      exact hpast'.later_zero _
    · have hnone : added = [] := by
        obtain ⟨_, _, rfl⟩ := List.exists_cons_of_ne_nil hpast
        obtain ⟨_, _, rfl⟩ := List.exists_cons_of_ne_nil fun he ↦ hpast (hgains.begun he)
        exact List.append_right_eq_self.mp hplaced
      rw [hpassage, hnone]
      rfl
  refine ⟨(scope.add stage (inner'.conclude s') s').1, ?_, ?_⟩
  · rw [outcome_phrase]
    change (outcome (playerOf stage (depth + 1) scope.settings (Repetition.unfold content (-1)).2
      (Repetition.unfold content (-1)).1) s).map _ = _
    rw [Repetition.unfold_once fun bar hmem ↦ absurd hmem (hbars bar), outcome_playerOf, hbody]
    exact congrArg (fun t ↦ some (Except.ok (scope.add stage (inner'.conclude s') s').1, t)) hlater
  · refine ⟨absorb_settings _ _ _, ⟨added, ?_, hplaced⟩, hgains.begun, fun he hs ↦ ?_⟩
    · exact hpassage ▸ absorb_events _ _ _
    · exact still_absorb hs stage (still_conclude (hinner (hgains.still he ⟨rfl, rfl, rfl⟩)) s')

section Run

variable {stage : Stage} (hp : stage.repertoire.plugins = ∅)
  (hread : ∀ note ∈ notes, ∀ trace, (note.read stage settings trace).sounds = sounds)
  (hv : ∀ sound ∈ sounds, sound.volume.isNaN = false)
include hp hread hv

theorem playSymbol_chain (player : Player) (scope : Scope) {symbol : Symbol} {todo : List Symbol}
    (hs : scope.settings = settings) (hstill : past = [] → scope.progress.Still [])
    (h : Awaits settings sounds notes past (symbol :: todo) s) :
    ∃ past' scope' s', outcome (scope.playSymbol stage player symbol) s = some (.ok scope', s') ∧
      Awaits settings sounds notes past' todo s' ∧ Gains sounds past past' scope scope' := by
  generalize htodo : symbol :: todo = all at h
  cases h with
  | @first first more _ he hfirst =>
    obtain ⟨rfl, rfl⟩ := List.cons.inj htodo
    obtain ⟨hsustains, hstarted⟩ :=
      noted_untied (hs ▸ hread first (he ▸ List.mem_cons_self) s.trace) hp (hstill rfl)
        hfirst.1 hfirst.2
    exact ⟨[first], _, _, outcome_note stage player scope s first, .tie he nofun (hs ▸ hsustains),
      scope.gains_noted nofun hstarted⟩
  | @tie _ more _ he hne hpast =>
    cases more with
    | nil => cases htodo
    | cons next more =>
      rw [links_cons] at htodo
      obtain ⟨rfl, rfl⟩ := List.cons.inj htodo
      refine ⟨past, scope, _, rfl, .link he hne ?_ rfl, scope.gains_refl⟩
      cases past with
      | nil => exact absurd rfl hne
      | cons first rest => exact ⟨hpast.events, hpast.pending⟩
  | @link _ more next _ he hne hpast ht =>
    obtain ⟨rfl, rfl⟩ := List.cons.inj htodo
    have hmem : next ∈ notes := he ▸ List.mem_append_right past List.mem_cons_self
    cases past with
    | nil => exact absurd rfl hne
    | cons first rest =>
      obtain ⟨hsustains, hstarted⟩ := noted_tied (hs ▸ hread next hmem s.trace) hp hpast ht hv
      rw [hs, ← span_append] at hsustains
      refine ⟨first :: (rest ++ [next]), _, _, outcome_note stage player scope s next,
        .tie ?_ nofun hsustains, scope.gains_noted nofun ?_⟩
      · rw [← he, List.cons_append, List.append_assoc]
        rfl
      · rw [hstarted]
        exact List.append_nil _

theorem playFrom_chain {flat content : List Symbol} (hg : Grouped flat content) {depth index : Nat}
    {rest : List Symbol} {scope : Scope} (hd : Symbol.contentDepth content ≤ depth)
    (hs : scope.settings = settings) (hstill : past = [] → scope.progress.Still [])
    (h : Awaits settings sounds notes past (flat ++ rest) s) :
    ∃ past' scope' s', outcome (scope.playFrom stage (playerOf stage depth) index content) s =
      some (.ok scope', s') ∧
      Awaits settings sounds notes past' rest s' ∧ Gains sounds past past' scope scope' := by
  induction hg generalizing depth index scope past s rest with
  | nil => exact ⟨past, scope, s, rfl, h, scope.gains_refl⟩
  | @keep symbol flat grouped _ ih =>
    rw [Symbol.contentDepth, Nat.max_le] at hd
    have hindex : Gains sounds past past scope (scope.atIndex index) := scope.gains_atIndex index
    obtain ⟨past₁, scope₁, s₁, hsymbol, hawaits, hgains⟩ :=
      playSymbol_chain hp hread hv (playerOf stage depth) (scope.atIndex index) hs (fun he ↦
        still_atIndex (hstill he) index) h
    have hgained := hindex.trans hgains
    obtain ⟨past₂, scope₂, s₂, hrest, hawaits₂, hgains₂⟩ := ih hd.2 (hgained.settings.trans hs)
      (fun he ↦ hgained.still he (hstill (hgained.begun he))) hawaits
    refine ⟨past₂, scope₂, s₂, ?_, hawaits₂, hgained.trans hgains₂⟩
    rw [outcome_playFrom_cons, hsymbol]
    exact hrest
  | @group part content flat grouped hc _ ihc ih =>
    rw [Symbol.contentDepth, Symbol.depth, Nat.max_le] at hd
    obtain ⟨d, rfl⟩ : ∃ d, depth = d + 1 := ⟨depth - 1, by omega⟩
    have hindex : Gains sounds past past scope (scope.atIndex index) := scope.gains_atIndex index
    rw [List.append_assoc] at h
    have hbars : ∀ bar, Symbol.barLine bar ∉ content := by
      intro bar hmem
      obtain hpart | ⟨_, ⟨⟩⟩ := hc.mem hmem
      exact h.no_bars bar (List.mem_append_left _ hpart)
    have hcontent : Symbol.contentDepth content ≤ d := by omega
    obtain ⟨past₁, inner, s₁, hinner, hawaits, hgains⟩ : ∃ past' inner s',
        outcome ((Scope.begin stage s scope.settings []).playFrom stage (playerOf stage d) 0
          content) s = some (.ok inner, s') ∧
        Awaits settings sounds notes past' (flat ++ rest) s' ∧
        Gains sounds past past' (.begin stage s scope.settings []) inner :=
      ihc hcontent hs (fun _ ↦ ⟨rfl, rfl, rfl⟩) h
    obtain ⟨scope₁, hphrase, hadded⟩ := playPhrase_chain (scope.atIndex index) hbars
      (fun he ↦ still_atIndex (hstill he) index) hinner hawaits.sounding hgains
    have hgained := hindex.trans hadded
    obtain ⟨past₂, scope₂, s₂, hrest, hawaits₂, hgains₂⟩ := ih hd.2 (hgained.settings.trans hs)
      (fun he ↦ hgained.still he (hstill (hgained.begun he))) hawaits
    refine ⟨past₂, scope₂, s₂, ?_, hawaits₂, hgained.trans hgains₂⟩
    rw [outcome_playFrom_cons, hphrase]
    exact hrest

end Run

end Scope

end

open Chain

section Perform

variable {r : Repertoire} {settings : Settings} {instrument : Instrument} {name : Option String}
  {content : List Symbol} {first : Note} {more : List Note}

/-- Notes of the same pitches that are tied together sound as one, whichever of them lie in phrases:
there is an event for each sound of the first note, which lasts as long as all of them. -/
theorem perform_tied_chain (id : String) (hp : r.plugins = ∅)
    (hsame : ∀ note ∈ more,
      note.pitches = first.pitches ∧ note.shifts = first.shifts ∧ note.dynamics = first.dynamics)
    (hreplay : ∀ pitch ∈ first.pitches, pitch.degree ≠ .retrace)
    (hv : ∀ sound ∈ (first.read (r.stage instrument) settings []).sounds,
      sound.volume.isNaN = false)
    (hg : Grouped (.note first :: links more) (instrument.opening ++ content)) :
    ∃ performance, perform r settings instrument id name content = some (.ok performance) ∧
      performance.events = (first.read (r.stage instrument) settings []).sounds.map
        (.ofSound (span settings first more) 0 0) := by
  have hread : ∀ note ∈ first :: more, ∀ trace,
      (note.read (r.stage instrument) settings trace).sounds =
      (first.read (r.stage instrument) settings []).sounds := by
    refine List.forall_mem_cons.mpr ⟨fun trace ↦ ?_, fun note hmem trace ↦ ?_⟩
    · exact Note.sounds_read rfl rfl rfl hreplay _ _ _ _
    · obtain ⟨hpitches, hshifts, hdynamics⟩ := hsame note hmem
      exact Note.sounds_read hpitches hshifts hdynamics hreplay _ _ _ _
  have hstart : Awaits settings (first.read (r.stage instrument) settings []).sounds
      (first :: more) [] ((.note first :: links more) ++ []) (.opening name) := by
    rw [List.append_nil]
    exact .first rfl ⟨rfl, rfl⟩
  have hdepth : Symbol.contentDepth (instrument.opening ++ content) ≤
      r.depthOf (instrument.opening ++ content) := by
    rw [Repertoire.depthOf]
    omega
  obtain ⟨past, scope, s, hrun, hawaits, hgains⟩ : ∃ past scope s,
      outcome ((Scope.enter (r.stage instrument) settings (.opening name) false).playFrom
        (r.stage instrument) (playerOf (r.stage instrument)
          (r.depthOf (instrument.opening ++ content))) 0 (instrument.opening ++ content))
        (.opening name) = some (.ok scope, s) ∧
      Awaits settings (first.read (r.stage instrument) settings []).sounds
        (first :: more) past [] s ∧
      Scope.Gains (first.read (r.stage instrument) settings []).sounds [] past
        (.enter (r.stage instrument) settings (.opening name) false) scope :=
    Scope.playFrom_chain hp hread hv hg hdepth rfl (fun _ ↦ ⟨rfl, rfl, rfl⟩) hstart
  obtain rfl := hawaits.past_eq
  obtain ⟨added, hadded, hplaced⟩ := hgains.events
  have hevents := hawaits.sounding.events
  have hids : (scope.conclude s).events = List.range s.events.size := by
    rw [Scope.conclude_events, hadded, ← Array.length_toList, hevents, List.length_map]
    exact hplaced
  have htrack : outcome (playTrack (r.stage instrument) settings (instrument.opening ++ content))
      (.opening name) = some (.ok (scope.settings, scope.conclude s), s) := by
    rw [outcome_playTrack]
    exact congrArg _ hrun
  rw [perform_eq, htrack, hp]
  refine ⟨_, rfl, ?_⟩
  change s.eventsAt (scope.conclude s).events = _
  rw [hids, Session.eventsAt_range, hevents]

end Perform

namespace Doubled

def note (lengths : String) : Note :=
  { pitches := [{ degree := .scale 3 }, { degree := .scale 3 }], lengths }

def content : List Symbol :=
  [.phrase (-1) [.note (note "")], .phrase (-1) [.tie, .phrase (-1) [.note (note "-")], .tie],
    .note (note "_")]

theorem grouped_content : Grouped (.note (note "") :: links [note "-", note "_"]) content := by
  have hinner : Grouped (.tie :: ([.note (note "-")] ++ [.tie]))
      [.tie, .phrase (-1) [.note (note "-")], .tie] :=
    .keep _ (.group (.keep _ .nil) (.keep _ .nil))
  have hall :
      Grouped ([.note (note "")] ++ ((.tie :: ([.note (note "-")] ++ [.tie])) ++
        [.note (note "_")])) content :=
    .group (.keep _ .nil) (.group hinner (.keep _ .nil))
  exact hall

end Doubled

theorem perform_tied_chain_grouped : ∃ performance,
    perform {} {} {} "" none Doubled.content = some (.ok performance) ∧
    performance.events.map (fun e ↦ (e.pitch, e.beat, e.startTime)) = [(some 4, 3.5, 0),
      (some 4, 3.5, 0)] := by
  obtain ⟨performance, hperform, hevents⟩ : ∃ performance,
      perform {} {} {} "" none Doubled.content = some (.ok performance) ∧
      performance.events = ((Doubled.note "").read (Repertoire.stage {} {}) {} []).sounds.map
        (.ofSound (Chain.span {} (Doubled.note "") [Doubled.note "-", Doubled.note "_"]) 0 0) :=
    perform_tied_chain "" rfl (by decide) (by decide) (by decide +kernel) Doubled.grouped_content
  refine ⟨performance, hperform, ?_⟩
  rw [hevents]
  decide +kernel

end Rendition
