import Rendition.Proofs.Play.Store

namespace Rendition

open Pending (Pairs)

theorem Session.prolongAll_toList (s : Session) (timing : Timing) {ties : List Pending}
    (hn : (ties.map Pending.event).Nodup) : (s.prolongAll timing ties).events.toList =
      s.events.toList.mapIdx fun id e ↦ if id ∈ ties.map Pending.event then e.prolong timing
      else e := by
  refine List.ext_getElem? fun id ↦ ?_
  rw [List.getElem?_mapIdx, Array.getElem?_toList, Array.getElem?_toList]
  by_cases hid : id ∈ ties.map Pending.event
  · simp only [if_pos hid]
    exact prolongAll_of_mem s timing hn hid
  · simp only [if_neg hid, prolongAll_of_notMem s timing hid]
    exact Option.map_id'.symm

namespace Scope

variable {scope : Scope} {stage : Stage} {s : Session} {note : Note}

theorem length_started :
    (scope.started stage s note).length = (note.tied stage scope.settings s).2.length := by
  rw [started, List.length_range', Note.length_fresh]

theorem started_eq :
    scope.started stage s note =
      List.range' s.events.size (note.tied stage scope.settings s).2.length := by
  rw [started, Note.length_fresh]

theorem noted_store (hplugins : stage.repertoire.plugins = ∅)
    (hdistinct : (s.pending.map Pending.event).Nodup) :
    (scope.noted stage s note).2.events.toList =
      (s.events.toList.mapIdx fun id e ↦
        if id ∈ (note.tied stage scope.settings s).1.map Pending.event then e.prolong
          (note.timing scope.settings)
        else e) ++
      (note.tied stage scope.settings s).2.map
        (.ofSound (note.timing scope.settings) scope.progress.duration
          scope.progress.beatCount) := by
  have hnodup := hdistinct.sublist ((note.tied_sublist stage scope.settings s).map Pending.event)
  have hbase : (scope.noteBase stage s note).events.toList = _ :=
    (s.record (note.read stage scope.settings s.trace).tones).prolongAll_toList
      (note.timing scope.settings) hnodup
  rw [noted_snd, Array.toList_append, hbase, Session.record_events, Note.fresh, hplugins]
  rfl

theorem noted_pending_event : (scope.noted stage s note).2.pending.map Pending.event =
    (note.tied stage scope.settings s).1.map Pending.event ++ scope.started stage s note := by
  rw [noted_snd, List.map_append, Pending.map_event length_started]

theorem noted_pending_nodup (hdistinct : (s.pending.map Pending.event).Nodup)
    (hinside : ∀ tie ∈ s.pending, tie.event < s.events.size) :
    ((scope.noted stage s note).2.pending.map Pending.event).Nodup := by
  rw [noted_pending_event, started_eq, List.nodup_append]
  refine ⟨hdistinct.sublist ((note.tied_sublist stage scope.settings s).map Pending.event),
    List.nodup_range', ?_⟩
  rintro id htied _ hstarted rfl
  obtain ⟨tie, hmem, rfl⟩ := List.mem_map.mp htied
  have hlt := hinside tie ((note.tied_sublist stage scope.settings s).subset hmem)
  have hge := (List.mem_range'_1.mp hstarted).1
  omega

theorem noted_pending_continues
    (hvolume : ∀ sound ∈ (note.read stage scope.settings s.trace).sounds,
      sound.volume.isNaN = false) :
    ∃ sounding, sounding.Perm (note.read stage scope.settings s.trace).sounds ∧
      List.Forall₂ (fun tie sound ↦ tie.continues sound) (scope.noted stage s note).2.pending
        sounding := by
  have hpairs := note.pairs_tied stage scope.settings s
  obtain ⟨taken, htaken, hperm⟩ := hpairs.taken
  refine ⟨_, hperm, ?_⟩
  rw [noted_snd]
  exact List.rel_append htaken
    (Pending.zipWith_continues length_started fun sound hmem ↦
      hvolume sound (hpairs.rest_sublist.subset hmem))

end Scope

namespace Note

variable (note : Note) (stage : Stage) (settings : Settings) (s : Session) (progress : Progress)

/-- Of every pitch and volume, as many pending events as the note has sounds of it are prolonged,
each once, if a tie stands before the note. Every other sound starts one event, at the clock. All
that sounds is then pending, each event once, and no other event has changed. -/
theorem play_pairs_sounds (hplugins : stage.repertoire.plugins = ∅)
    (hdistinct : (s.pending.map Pending.event).Nodup)
    (hinside : ∀ tie ∈ s.pending, tie.event < s.events.size)
    (hvolume : ∀ sound ∈ (note.read stage settings s.trace).sounds, sound.volume.isNaN = false) :
    ∃ tied rest,
      Pairs (if s.tieLeft then s.pending else []) (note.read stage settings s.trace).sounds
        tied rest ∧
      (s.tieLeft = false → tied = [] ∧ rest = (note.read stage settings s.trace).sounds) ∧
      let timing := note.timing settings
      let outcome := (note.play stage settings s progress).1
      let s' := (note.play stage settings s progress).2.1
      s'.events.toList = (s.events.toList.mapIdx fun id e ↦
          if id ∈ tied.map Pending.event then
            { e with
              nominal := e.nominal + timing.nominal
              duration := e.duration + timing.duration
              beat := e.beat + timing.beat }
          else e) ++
        rest.map (.ofSound timing progress.duration progress.beatCount) ∧
      outcome.events = List.range' s.events.size rest.length ∧
      s'.tieLeft = false ∧
      s'.pending.map Pending.event = tied.map Pending.event ++ outcome.events ∧
      (s'.pending.map Pending.event).Nodup ∧
      (∀ tie ∈ s'.pending, tie.event < s'.events.size) ∧
      ∃ sounding, sounding.Perm (note.read stage settings s.trace).sounds ∧
        List.Forall₂ (fun tie sound ↦ tie.continues sound) s'.pending sounding := by
  -- The note is played as by a passage that stands at this clock.
  let scope : Scope := { Scope.enter stage settings s true with progress }
  have hids : (note.play stage settings s progress).1.events = scope.started stage s note :=
    scope.noted_events stage s note
  have htieLeft : (note.play stage settings s progress).2.1.tieLeft = false :=
    congrArg Session.tieLeft (scope.noted_snd stage s note)
  have huntied (h : s.tieLeft = false) :
      note.tied stage settings s = ([], (note.read stage settings s.trace).sounds) := by
    rw [tied, h]
    rfl
  refine ⟨_, _, note.pairs_tied stage settings s, fun h ↦ Prod.ext_iff.mp (huntied h), ?_⟩
  exact ⟨scope.noted_store hplugins hdistinct, hids.trans scope.started_eq, htieLeft,
    hids ▸ scope.noted_pending_event, scope.noted_pending_nodup hdistinct hinside,
    (scope.noted_extends stage s note).pending_lt hinside, scope.noted_pending_continues hvolume⟩

theorem play_pairs_sounds_doubled :
    let note : Note :=
      { pitches := [{ degree := .scale 1 }, { degree := .scale 3 }, { degree := .scale 1 }] }
    let stage : Stage := { repertoire := {} }
    let event : Event := ⟨some 0, 1, 1, 1, 1, 0, 0⟩
    let s : Session := {
      pending := [⟨2, some 4, 1⟩, ⟨0, some 0, 1⟩, ⟨1, some 4, 1⟩]
      tieLeft := true
      events := #[event, event, event] }
    let sounds := (note.read stage {} s.trace).sounds
    (s.pending.map Pending.event).Nodup ∧ (∀ tie ∈ s.pending, tie.event < s.events.size) ∧
      sounds = [⟨some 0, 1, false⟩, ⟨some 4, 1, false⟩, ⟨some 0, 1, false⟩] ∧
      (∀ sound ∈ sounds, sound.volume.isNaN = false) ∧
      ∃ tied rest, Pairs s.pending sounds tied rest ∧ tied.countP (·.agrees (some 0) 1) = 1 ∧
        tied.countP (·.agrees (some 4) 1) = 1 ∧ rest.countP (·.agrees (some 0) 1) = 1 ∧
        rest.countP (·.agrees (some 4) 1) = 0 ∧
        (note.play stage {} s {}).2.1.pending.map Pending.event =
          tied.map Pending.event ++ List.range' s.events.size rest.length := by
  intro note stage event s sounds
  have hdistinct : (s.pending.map Pending.event).Nodup := by decide
  have hinside : ∀ tie ∈ s.pending, tie.event < s.events.size := by decide
  have hsounds : sounds = [⟨some 0, 1, false⟩, ⟨some 4, 1, false⟩, ⟨some 0, 1, false⟩] := by
    decide +kernel
  have hvolume : ∀ sound ∈ sounds, sound.volume.isNaN = false := by rw [hsounds]; decide +kernel
  obtain ⟨tied, rest, hpairs, -, -, hids, -, hpending, -⟩ :=
    play_pairs_sounds note stage {} s {} rfl hdistinct hinside hvolume
  have hties : s.pending.countP (·.agrees (some 0) 1) = 1 ∧
      s.pending.countP (·.agrees (some 4) 1) = 2 := by
    decide +kernel
  have hcounts : sounds.countP (·.agrees (some 0) 1) = 2 ∧
      sounds.countP (·.agrees (some 4) 1) = 1 := by
    rw [hsounds]
    decide +kernel
  have hlow := hpairs.countP_tied (some 0) 1
  have hhigh := hpairs.countP_tied (some 4) 1
  have hlow' := hpairs.countP_rest (some 0) 1
  have hhigh' := hpairs.countP_rest (some 4) 1
  rw [if_pos rfl] at hpairs hlow hhigh
  rw [hties.1, hcounts.1] at hlow
  rw [hties.2, hcounts.2] at hhigh
  rw [hlow, hcounts.1] at hlow'
  rw [hhigh, hcounts.2] at hhigh'
  exact ⟨hdistinct, hinside, hsounds, hvolume, tied, rest, hpairs, hlow, hhigh, by omega, by omega,
    hids ▸ hpending⟩

end Note

end Rendition
