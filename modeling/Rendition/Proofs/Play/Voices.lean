import Rendition.Proofs.Play.Carrying
import Rendition.Proofs.Play.Honest
import Rendition.Proofs.Play.Still

namespace Rendition

theorem Pending.pair_eq_nil {ties : List Pending} {sounds : List Sound} :
    (pair ties sounds).1 = [] ↔ ∀ tie ∈ ties, ∀ sound ∈ sounds, tie.continues sound = false := by
  induction ties with
  | nil => simp [pair]
  | cons tie ties ih =>
    rw [pair, List.forall_mem_cons]
    split
    next h =>
      obtain ⟨sound, hmem, hc⟩ := List.any_eq_true.mp h
      refine ⟨nofun, fun hall ↦ ?_⟩
      rw [hall.1 sound hmem] at hc
      cases hc
    next h =>
      rw [ih]
      refine ⟨fun hall ↦ ⟨fun sound hmem ↦ ?_, hall⟩, fun hall ↦ hall.2⟩
      exact Bool.eq_false_iff.mpr fun hc ↦ h (List.any_eq_true.mpr ⟨sound, hmem, hc⟩)

namespace Session

/-- All ties that stand are to events started since the store had the size `start`. -/
structure Since (start : Nat) (s : Session) : Prop where
  size_le : start ≤ s.events.size
  pending : ∀ p ∈ s.pending, start ≤ p.event

theorem Since.waits {start : Nat} {s t : Session} (h : s.Since start) (hw : s.Waits t) :
    t.Since start where
  size_le := hw.size_eq ▸ h.size_le
  pending := hw.pending ▸ h.pending

end Session

namespace Entrance

variable {stage : Stage} {e : Entrance}

theorem ties_eq_nil : e.ties stage = [] ↔ e.session.tieLeft = false ∨
    ∀ tie ∈ e.session.pending, ∀ sound ∈ e.sounds stage, tie.continues sound = false := by
  unfold ties Note.tied
  split
  next ht => simp [Pending.pair_eq_nil, ht, sounds]
  next ht => simp [ht]

theorem length_ties_add_fresh : (e.ties stage).length + (e.fresh stage).length =
    (e.sounds stage).length := by
  rw [fresh, Note.length_fresh, ties]
  exact (e.note.pairs_tied stage e.scope.settings e.session).length_eq

theorem since_after {start : Nat} (hsize : start ≤ e.session.events.size)
    (hties : ∀ p ∈ e.ties stage, start ≤ p.event) :
    (e.after stage).Since start where
  size_le := by
    rw [after, Scope.noted_size]
    exact Nat.le_add_right_of_le hsize
  pending p hp := by
    rw [pending_after] at hp
    obtain hp | hp := List.mem_append.mp hp
    · exact hties p hp
    · obtain ⟨i, hi, rfl⟩ := List.getElem_of_mem hp
      rw [List.getElem_zipWith, List.getElem_range']
      exact Nat.le_add_right_of_le hsize

end Entrance

section Clock

/-- The clocks of a note and of the passages between it and those around stand at zero. -/
def Entrance.AtZero (around : List Scope) (e : Entrance) : Prop :=
  ∃ inner, e.around = inner ++ around ∧ ∀ scope ∈ e.scope :: inner, ∃ voices,
    scope.progress.Still voices

/-- Up to the first note, clocks stand at zero; if there is none, something holds of the end. -/
def Hushed (around : List Scope) : List Entrance → Prop → Prop
  | [], atEnd => atEnd
  | e :: _, _ => e.AtZero around

theorem Hushed.append {around : List Scope} {es es' : List Entrance} {p q : Prop}
    (h : Hushed around es p) (h' : p → Hushed around es' q) : Hushed around (es ++ es') q := by
  cases es with
  | nil => exact h' h
  | cons e rest => exact h

theorem Hushed.imp {around : List Scope} {es : List Entrance} {p q : Prop} (h : Hushed around es p)
    (h' : p → q) :
    Hushed around es q := by
  cases es with
  | nil => exact h' h
  | cons e rest => exact h

theorem Hushed.outward {around : List Scope} {scope : Scope} {voices : List Float}
    {es : List Entrance} {p : Prop} (hs : scope.progress.Still voices)
    (h : Hushed (scope :: around) es p) : Hushed around es p := by
  cases es with
  | nil => exact h
  | cons e rest =>
    obtain ⟨inner, he, hall⟩ := h
    refine ⟨inner ++ [scope], by rw [he, List.append_assoc]; rfl, ?_⟩
    intro scope' hmem
    obtain hmem | hmem :=
      List.mem_append.mp (List.cons_append ▸ hmem : scope' ∈ (e.scope :: inner) ++ [scope])
    · exact hall scope' hmem
    · obtain rfl := List.mem_singleton.mp hmem
      exact ⟨voices, hs⟩

variable {stage : Stage} {player : Player} {inner : Listing}

def Listing.Hushes (player : Player) (inner : Listing) : Prop :=
  ∀ around settings remarks symbols s, Hushed around (inner around settings remarks symbols s)
    (∀ passage s', outcome (player settings remarks symbols) s = some (.ok passage, s') →
      passage.progress.Still [])

theorem Scope.still_join {passages : List Passage} (h : ∀ p ∈ passages, p.progress.Still [])
    (scope : Scope) (s : Session) : (scope.join stage passages s).1.progress.Still [] := by
  have heach : ∀ (index : Nat) (scope : Scope) (s : Session), scope.progress.Still [] →
      (addEach stage index passages scope s).1.progress.Still [] := by
    induction passages with
    | nil => exact fun _ _ _ hs ↦ hs
    | cons passage rest ih =>
      intro index scope s hs
      obtain ⟨hp, hrest⟩ := List.forall_mem_cons.mp h
      exact ih hrest _ _ _ (still_absorb (still_atIndex hs index) stage hp)
  have hjoined := still_conclude (heach 0 (enter stage scope.settings s true) s ⟨rfl, rfl, rfl⟩)
    (addEach stage 0 passages (enter stage scope.settings s true) s).2
  exact ⟨hjoined.duration, hjoined.beatCount, hjoined.voices⟩

theorem Scope.still_take {scope scope' : Scope} {voices : List Float}
    (hs : scope.progress.Still voices) {s : Session} {r : Except Fault Passage}
    (hr : ∀ passage, r = .ok passage → passage.progress.Still [])
    (h : (scope.take stage s r).1 = .ok scope') : scope'.progress.Still voices := by
  cases r with
  | error fault => cases h
  | ok passage =>
    cases h
    exact still_absorb hs stage (hr passage rfl)

theorem Scope.still_receive {scope scope' : Scope} {voices : List Float}
    (hs : scope.progress.Still voices) {s : Session} {name : String}
    {r : Except Fault (Option Passage)}
    (hr : ∀ passage, r = .ok (some passage) → passage.progress.Still [])
    (h : (scope.receive stage s name r).1 = .ok scope') : scope'.progress.Still voices := by
  match r with
  | .ok none | .error (.setting ..) | .error (.argument ..) =>
    cases h
    exact hs
  | .error (.undefinedTheme ..) => cases h
  | .ok (some passage) =>
    cases h
    exact still_absorb hs stage (hr passage rfl)

variable (hinner : inner.Hushes player) {around : List Scope} {scope : Scope} {voices : List Float}
include hinner

theorem Scope.hushed_script {name : String} {access : Access} {held : List Passage}
    {script : Script (Option Passage)} (hh : script.Honest held)
    (hheld : ∀ p ∈ held, p.progress.Still []) (hs : scope.progress.Still voices) (s : Session) :
    Hushed around ((scope.interludesOf stage player name access script s).flatMap
      (·.notes inner around)) (∀ r scope' s', (scope.answer stage player name access script).run s =
        some ((r, scope'), s') →
        scope'.progress = scope.progress ∧ ∀ passage, r = .ok (some passage) →
        passage.progress.Still []) := by
  induction hh generalizing scope s with
  | none =>
    rintro _ _ _ ⟨⟩
    exact ⟨rfl, nofun⟩
  | some hmem =>
    rintro _ _ _ ⟨⟩
    refine ⟨rfl, ?_⟩
    rintro _ ⟨⟩
    exact hheld _ hmem
  | fail =>
    rintro _ _ _ ⟨⟩
    exact ⟨rfl, nofun⟩
  | @play held phrase overrides access' next _ ih =>
    have hfirst :=
      (hinner (scope :: around) (scope.settings.override overrides) phrase.written.2
        phrase.written.1 (access'.lend s)).outward hs
    rw [interludesOf, List.flatMap_cons, answer_play]
    refine hfirst.append fun hpassage ↦ ?_
    cases hrun : Interlude.run player ⟨scope, s, phrase, overrides, access'⟩ with
    | none =>
      intro r scope' s' h
      rw [show (scope.playPhrase player phrase overrides access').run s = none from hrun] at h
      cases h
    | some x =>
      obtain ⟨u, s₁⟩ := x
      rw [show (scope.playPhrase player phrase overrides access').run s = some (u, s₁) from hrun]
      refine ih u ?_ hs s₁
      cases u with
      | error fault => exact hheld
      | ok passage =>
        rw [Interlude.run, playPhrase_run] at hrun
        obtain ⟨⟨v, s₂⟩, hplay, he⟩ := Option.map_eq_some_iff.mp hrun
        cases he
        exact List.forall_mem_cons.mpr ⟨hpassage passage s₂ hplay, hheld⟩
  | @join held passages next hp _ ih =>
    have hjoined : (scope.join stage passages s).1.progress.Still [] :=
      still_join (fun p hmem ↦ hheld p (hp hmem)) scope s
    exact ih _ (List.forall_mem_cons.mpr ⟨hjoined, hheld⟩) hs _
  | @remark held message next _ ih =>
    exact ih hheld (show (scope.remark (.function name message)).progress.Still voices from hs) s
  | settings _ ih => exact ih _ hheld hs s
  | @setSettings held settings next _ ih =>
    exact ih hheld (show ({ scope with settings } : Scope).progress.Still voices from hs) s
  | trace _ ih => exact ih _ hheld hs s
  | record _ ih =>
    rw [answer_record]
    exact ih _ hheld hs _
  | progress _ ih => exact ih _ hheld hs s

theorem Scope.hushed_symbol (hr : stage.repertoire.Honest) (hs : scope.progress.Still voices)
    (s : Session) (symbol : Symbol) :
    Hushed around (scope.symbolNotes stage player inner around s symbol)
      (∀ scope' s', outcome (scope.playSymbol stage player symbol) s = some (.ok scope', s') →
        scope'.progress.Still voices) := by
  cases symbol with
  | note note => exact ⟨[], rfl, fun scope' hmem ↦ ⟨voices, List.mem_singleton.mp hmem ▸ hs⟩⟩
  | tie | clef | comment | space =>
    rintro _ _ ⟨⟩
    exact hs
  | barLine bar =>
    rintro _ _ ⟨⟩
    exact still_playBarLine hs bar
  | marking kind =>
    rintro _ _ ⟨⟩
    exact still_playMarking hs stage kind
  | phrase times content =>
    refine ((hinner _ _ _ _ _).outward hs).imp fun hpassage scope' s' h ↦ ?_
    rw [outcome_phrase] at h
    obtain ⟨⟨r, s₁⟩, hplay, he⟩ := Option.map_eq_some_iff.mp h
    refine still_take hs (fun passage hr ↦ hpassage passage s₁ ?_) (congrArg Prod.fst he)
    exact hr ▸ hplay
  | theme name =>
    rw [symbolNotes]
    cases hc : stage.repertoire.themes.find? name with
    | none =>
      rw [outcome_theme_none _ _ _ _ hc]
      rintro _ _ ⟨⟩
    | some content =>
      dsimp only
      split
      next ha =>
        rw [outcome_theme_active _ _ _ hc ha]
        rintro _ _ ⟨⟩
        exact hs
      next ha =>
        refine ((hinner _ _ _ _ _).outward hs).imp fun hpassage scope' s' h ↦ ?_
        rw [outcome_theme _ _ _ hc ha] at h
        obtain ⟨⟨r, s₁⟩, hplay, he⟩ := Option.map_eq_some_iff.mp h
        refine still_take hs (fun passage hr ↦ hpassage passage s₁ ?_) (congrArg Prod.fst he)
        exact hr ▸ hplay
  | call name arguments =>
    rw [symbolNotes]
    cases hf : stage.repertoire.functions.find? name with
    | none =>
      rw [outcome_call_none _ _ _ _ _ hf, interludes, hf]
      rintro _ _ ⟨⟩
      exact hs
    | some function =>
      cases hv : arguments.mapM Value.ofArgument with
      | error e =>
        rw [outcome_call_error _ _ _ _ hf hv, interludes, hf, hv]
        rintro _ _ ⟨⟩
        exact hs
      | ok values =>
        rw [interludes_eq _ _ hf hv]
        have hheld : ∀ p ∈ ([] : List Passage), p.progress.Still [] := List.forall_mem_nil _
        refine (hushed_script hinner (hr name function hf name values) hheld hs s).imp
          fun hpassage scope' s' h ↦ ?_
        rw [outcome_call _ _ _ _ hf hv] at h
        obtain ⟨⟨⟨r, scope₁⟩, s₁⟩, hanswer, he⟩ := Option.map_eq_some_iff.mp h
        obtain ⟨hprogress, hkept⟩ := hpassage r scope₁ s₁ hanswer
        exact still_receive (hprogress ▸ hs) hkept (congrArg Prod.fst he)

theorem Scope.hushed_symbols (hr : stage.repertoire.Honest) (hs : scope.progress.Still voices)
    (index : Nat) (symbols : List Symbol) (s : Session) :
    Hushed around (scope.notesFrom stage player inner around index symbols s)
      (∀ scope' s', outcome (scope.playFrom stage player index symbols) s = some (.ok scope', s') →
        scope'.progress.Still voices) := by
  induction symbols generalizing index scope s with
  | nil =>
    rintro _ _ ⟨⟩
    exact hs
  | cons symbol rest ih =>
    rw [notesFrom, outcome_playFrom_cons]
    refine (hushed_symbol hinner hr (still_atIndex hs index) s symbol).append fun hsymbol ↦ ?_
    rcases houtcome : outcome ((scope.atIndex index).playSymbol stage player symbol)
      s with - | ⟨fault | scope₁, s₁⟩
    · rintro _ _ ⟨⟩
    · rintro _ _ ⟨⟩
    · exact ih (hsymbol scope₁ s₁ houtcome) (index + 1) s₁

end Clock

theorem hushes_notesOf {stage : Stage} (hr : stage.repertoire.Honest) (depth : Nat) :
    (notesOf stage depth).Hushes (playerOf stage depth) := by
  induction depth with
  | zero => exact fun _ _ _ _ _ _ _ ↦ nofun
  | succ depth ih =>
    intro around settings remarks symbols s
    have hbegin : (Scope.begin stage s settings remarks).progress.Still [] := ⟨rfl, rfl, rfl⟩
    refine (Scope.hushed_symbols ih hr hbegin 0 symbols s).imp fun hend passage s' h ↦ ?_
    rw [outcome_playerOf] at h
    obtain ⟨⟨r, s₁⟩, hrun, he⟩ := Option.map_eq_some_iff.mp h
    cases r with
    | error fault => cases he
    | ok scope =>
      cases he
      exact Scope.still_conclude (hend scope _ hrun) _

theorem Follow.since {stage : Stage} {start : Nat} {s : Session} {es : List Entrance}
    {last : Option Session} (h : Follow stage s es last) (hs : s.Since start) :
    ∀ e ∈ es, e.session.Since start := by
  induction es generalizing s with
  | nil => exact nofun
  | cons e rest ih =>
    have he := hs.waits h.1
    have hafter : (e.after stage).Since start :=
      Entrance.since_after he.size_le fun p hp ↦ he.pending p (Entrance.ties_subset hp)
    exact List.forall_mem_cons.mpr ⟨he, ih h.2 hafter⟩

theorem Entrance.AtZero.shift {around : List Scope} {e : Entrance} (h : e.AtZero around) :
    ∃ inner, e.around = inner ++ around ∧
      inner.foldl Scope.shift (e.scope.progress.duration, e.scope.progress.beatCount) = (0, 0) := by
  obtain ⟨inner, he, hall⟩ := h
  obtain ⟨⟨voices, hscope⟩, hinner⟩ := List.forall_mem_cons.mp hall
  refine ⟨inner, he, ?_⟩
  rw [hscope.duration, hscope.beatCount]
  clear he hall
  induction inner with
  | nil => rfl
  | cons outer rest ih =>
    obtain ⟨⟨voices', houter⟩, hrest⟩ := List.forall_mem_cons.mp hinner
    have hshift : outer.shift (0, 0) = (0, 0) := by
      rw [Scope.shift, houter.duration, houter.beatCount]
      decide +kernel
    rw [List.foldl_cons, hshift]
    exact ih hrest

theorem Moment.atZero_of_notes {stage : Stage} (hr : stage.repertoire.Honest) (m : Moment)
    {voices : List Float} (hs : m.scope.progress.Still voices) {index : Nat} {symbols : List Symbol}
    (htask : m.task = .symbols index symbols) {first : Entrance} {later : List Entrance}
    (h : m.notes stage = first :: later) : first.AtZero m.around := by
  obtain ⟨depth, around, scope, s, task⟩ := m
  obtain rfl : task = _ := htask
  have hhushed : Hushed around (notes stage ⟨depth, around, scope, s, .symbols index symbols⟩) _ :=
    Scope.hushed_symbols (hushes_notesOf hr depth) hr hs index symbols s
  rw [h] at hhushed
  exact hhushed

section Perform

variable {r : Repertoire} {settings : Settings} {instrument : Instrument} {name : Option String}
  {content : List Symbol}

/-- An overlay voice prolongs nothing from before it just if its first note does not, which is so if
no tie has come up or the ties that stand continue no sound of that note. Then the note starts an
event for each sound. Its place is the beginning of the voice in any case, if functions add only
what they have played. -/
theorem perform_voice_separate_iff {depth index : Nat} {around : List Scope} {scope : Scope}
    {s : Session} {bar : BarLine} {voice rest : List Symbol} {first : Entrance}
    {later : List Entrance}
    (hm : Moment.Reached (r.stage instrument) (r.opening settings instrument name content)
      ⟨depth, around, scope, s, .symbols index (.barLine bar :: (voice ++ rest))⟩)
    (hbar : bar.overlay = true)
    (hnotes : Moment.notes (r.stage instrument)
      ⟨depth, around, (scope.atIndex index).playBarLine bar, s, .symbols (index + 1) voice⟩ =
      first :: later) :
    ((∀ e ∈ first :: later, ∀ tie ∈ e.ties (r.stage instrument), s.events.size ≤ tie.event) ↔
        first.ties (r.stage instrument) = []) ∧
      (first.ties (r.stage instrument) = [] ↔ first.session.tieLeft = false ∨
        ∀ tie ∈ s.pending, ∀ sound ∈ first.sounds (r.stage instrument),
        tie.continues sound = false) ∧
      (s.tieLeft = true → first.session.tieLeft = true) ∧
      (first.ties (r.stage instrument) = [] →
        (∀ e ∈ first :: later, ∀ i < s.events.size,
          (e.after (r.stage instrument)).events[i]? = e.session.events[i]?) ∧
        (first.fresh (r.stage instrument)).length = (first.sounds (r.stage instrument)).length) ∧
      (r.Honest → r.plugins.KeepOnsets → ∃ inner, first.around = inner ++ around ∧
        ∀ e ∈ first.fresh (r.stage instrument), inner.foldl Scope.shift e.onset = (0, 0)) := by
  obtain ⟨last, hfollow⟩ := Moment.exists_follow (r.stage instrument)
    ⟨depth, around, (scope.atIndex index).playBarLine bar, s, .symbols (index + 1) voice⟩
  rw [hnotes] at hfollow
  obtain ⟨hwaits, hlater⟩ := hfollow
  have hpending : ∀ tie ∈ s.pending, tie.event < s.events.size :=
    (Moment.reached_grows hm).pending_lt nofun
  -- Once the first note has started all its events anew, ties reach back no further than to it.
  have hsince : first.ties (r.stage instrument) = [] → ∀ e ∈ later,
      e.session.Since s.events.size := by
    intro hties
    have hafter : (first.after (r.stage instrument)).Since s.events.size :=
      Entrance.since_after (Nat.le_of_eq hwaits.size_eq.symm) (by rw [hties]; exact nofun)
    exact hlater.since hafter
  have hspare : first.ties (r.stage instrument) = [] →
      ∀ e ∈ first :: later, s.events.size ≤ e.session.events.size ∧
        ∀ tie ∈ e.ties (r.stage instrument), s.events.size ≤ tie.event := by
    intro hties
    refine List.forall_mem_cons.mpr ⟨⟨Nat.le_of_eq hwaits.size_eq.symm, by rw [hties]; exact nofun⟩,
      ?_⟩
    exact fun e he ↦ ⟨(hsince hties e he).size_le, fun tie htie ↦
      (hsince hties e he).pending tie (Entrance.ties_subset htie)⟩
  refine ⟨⟨fun hall ↦ ?_, fun hties e he ↦ (hspare hties e he).2⟩, ?_, hwaits.tieLeft,
    fun hties ↦ ⟨?_, ?_⟩, ?_⟩
  · refine List.eq_nil_iff_forall_not_mem.mpr fun tie htie ↦ ?_
    have hlt := hpending tie (hwaits.pending ▸ Entrance.ties_subset htie)
    exact Nat.not_lt.mpr (hall first List.mem_cons_self tie htie) hlt
  · rw [Entrance.ties_eq_nil, hwaits.pending]
  · intro e he i hi
    obtain ⟨hsize, hge⟩ := hspare hties e he
    refine Entrance.events_after (Nat.lt_of_lt_of_le hi hsize) fun hmem ↦ ?_
    obtain ⟨tie, htie, rfl⟩ := List.mem_map.mp hmem
    exact Nat.not_lt.mpr (hge tie htie) hi
  · rw [← Entrance.length_ties_add_fresh, hties]
    exact (Nat.zero_add _).symm
  · intro hr hp
    obtain ⟨voices, hstill⟩ := (scope.atIndex index).still_of_overlay hbar
    obtain ⟨inner, haround, hshift⟩ := (Moment.atZero_of_notes hr _ hstill rfl hnotes).shift
    exact ⟨inner, haround, fun e he ↦ Note.onset_of_mem_fresh hp he ▸ hshift⟩

end Perform

namespace Overlapping

def note : Note := { pitches := [{ degree := .scale 1 }] }

def lead : List Symbol := [.note note, .tie]

def overlay : BarLine := { overlay := true }

def content : List Symbol := lead ++ [.barLine overlay, .note note]

theorem voice_ties :
    (outcome ((Scope.enter (Repertoire.stage {} {}) {} (.opening none) false).playFrom
      (Repertoire.stage {} {}) (playerOf (Repertoire.stage {} {}) (Repertoire.depthOf {} content)) 0
        lead) (.opening none)).map (fun x ↦ x.1.toOption.map fun scope ↦
        (x.2.events.size, (Moment.notes (Repertoire.stage {} {}) ⟨Repertoire.depthOf {} content, [],
          (scope.atIndex 2).playBarLine overlay, x.2, .symbols 3 [.note note]⟩).map fun e ↦
            (e.ties (Repertoire.stage {} {})).map Pending.event)) = some (some (1, [[0]])) := by
  decide +kernel

end Overlapping

/-- A tie before an overlay bar line lets the voice behind it prolong the note before it. -/
theorem perform_voice_separate_iff_tied : ∃ scope s first later,
    Moment.Reached (Repertoire.stage {} {}) (Repertoire.opening {} {} {} none Overlapping.content)
      ⟨Repertoire.depthOf {} Overlapping.content, [], scope, s,
        .symbols 2 [.barLine Overlapping.overlay, .note Overlapping.note]⟩ ∧
    Moment.notes (Repertoire.stage {} {}) ⟨Repertoire.depthOf {} Overlapping.content, [],
      (scope.atIndex 2).playBarLine Overlapping.overlay, s, .symbols 3 [.note Overlapping.note]⟩ =
        first :: later ∧
    ¬∀ e ∈ first :: later, ∀ tie ∈ e.ties (Repertoire.stage {} {}), s.events.size ≤ tie.event := by
  obtain ⟨⟨u, s⟩, hu, he⟩ := Option.map_eq_some_iff.mp Overlapping.voice_ties
  cases u with
  | error fault => cases he
  | ok scope =>
    have hreached : Moment.Reached (Repertoire.stage {} {})
        (Repertoire.opening {} {} {} none Overlapping.content)
        ⟨Repertoire.depthOf {} Overlapping.content, [], scope, s,
          .symbols 2 (.barLine Overlapping.overlay :: ([.note Overlapping.note] ++ []))⟩ :=
      Moment.reached_past _ [.barLine Overlapping.overlay, .note Overlapping.note] hu
    obtain ⟨hsize, hties⟩ := Prod.mk.inj (Option.some.inj he)
    obtain ⟨first, later, hnotes, hfirst, -⟩ := List.map_eq_cons_iff.mp hties
    refine ⟨scope, s, first, later, hreached, hnotes, ?_⟩
    rw [(perform_voice_separate_iff hreached rfl hnotes).1]
    intro hnone
    rw [hnone] at hfirst
    cases hfirst

end Rendition
