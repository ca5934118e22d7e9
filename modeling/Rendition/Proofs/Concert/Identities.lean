import Mathlib.Data.List.Forall2
import Rendition.Proofs.Concert.Influence

namespace Rendition

structure Casting where
  track : Track
  instrument : Instrument

def Track.castings (track : Track) : List Casting := track.players.map (⟨track, ·⟩)

def Section.castings (s : Section) : List Casting := s.tracks.flatMap Track.castings

/-- Some repertoire has the casting played so, under some id. -/
def Casting.PlayedAs (settings : Settings) (casting : Casting) (performance : Performance) : Prop :=
  ∃ r id, perform r settings casting.instrument id casting.track.name casting.track.content =
    some (.ok performance)

/-- Of the id of a track, the plugins change no more than that one of them or another puts something
after it, the same for every track. -/
def Plugins.OnlyAppendToIds (plugins : Plugins) : Prop :=
  ∀ entry ∈ plugins.entries, ∃ ending, ∀ performance, (entry.2.complete performance).id =
    performance.id ++ ending

theorem Plugins.OnlyAppendToIds.exists_ending {plugins : Plugins} (h : plugins.OnlyAppendToIds) :
    ∃ ending, ∀ performance, (plugins.complete performance).id = performance.id ++ ending := by
  obtain ⟨entries⟩ := plugins
  unfold complete
  induction entries with
  | nil => exact ⟨"", fun performance ↦ String.append_empty.symm⟩
  | cons entry rest ih =>
    obtain ⟨⟨first, hfirst⟩, hrest⟩ := List.forall_mem_cons.mp h
    obtain ⟨ending, hending⟩ := ih hrest
    refine ⟨first ++ ending, fun performance ↦ ?_⟩
    rw [List.foldl_cons, hending, hfirst, String.append_assoc]

theorem id_of_perform {r : Repertoire} {settings : Settings} {instrument : Instrument} {id : String}
    {name : Option String} {content : List Symbol} {performance : Performance}
    (h : perform r settings instrument id name content = some (.ok performance)) :
    ∃ p : Performance, performance = r.plugins.complete p ∧ p.id = id := by
  obtain ⟨⟨answer, session⟩, -, he⟩ := Option.map_eq_some_iff.mp h
  cases answer with
  | error fault => cases he
  | ok played =>
    cases he
    exact ⟨_, rfl, rfl⟩

section Numbers

theorem append_cons_inj {xs xs' ys ys' : List Char} {a : Char} (hy : a ∉ ys) (hy' : a ∉ ys')
    (h : xs ++ a :: ys = xs' ++ a :: ys') : xs = xs' ∧ ys = ys' := by
  obtain ⟨as, hxs, hys⟩ | ⟨as, hxs, hys⟩ := List.append_eq_append_iff.mp h <;> cases as with
  | nil => simp_all
  | cons b as => simp_all

theorem not_mem_digits (n : Nat) : '#' ∉ (toString n).toList := by
  rw [Nat.toString_eq_ofList_toDigits, String.toList_ofList]
  intro h
  exact absurd (Nat.isDigit_of_mem_toDigits (by decide) (by decide) h) (by decide)

theorem toString_inj {n n' : Nat} (h : (toString n).toList = (toString n').toList) : n = n' := by
  rw [Nat.toString_eq_ofList_toDigits, Nat.toString_eq_ofList_toDigits, String.toList_ofList,
    String.toList_ofList] at h
  calc n = Nat.ofDigitChars 10 (Nat.toDigits 10 n) 0 := Nat.ofDigitChars_ten_toDigits.symm
    _ = Nat.ofDigitChars 10 (Nat.toDigits 10 n') 0 := by rw [h]
    _ = n' := Nat.ofDigitChars_ten_toDigits

theorem numbered_inj {name name' ending : String} {n n' : Nat}
    (h : name ++ "#" ++ toString n ++ ending = name' ++ "#" ++ toString n' ++ ending) :
    name = name' ∧ n = n' := by
  have hchars := congrArg String.toList h
  simp only [String.toList_append] at hchars
  have hnumbered := List.append_cancel_right hchars
  have hsharp : "#".toList = ['#'] := rfl
  rw [hsharp, ← List.append_cons, ← List.append_cons] at hnumbered
  obtain ⟨hname, hdigits⟩ := append_cons_inj (not_mem_digits n) (not_mem_digits n') hnumbered
  exact ⟨String.toList_inj.mp hname, toString_inj hdigits⟩

end Numbers

section Billing

variable {settings : Settings} {ending name : String} {before castings more : List Casting}
  {casting : Casting} {performances others : List Performance} {performance : Performance}
  {counts counts' : Concert.Counts} {r r' : Repertoire}

def Casting.isOn (name : String) (casting : Casting) : Bool := casting.instrument.name = name

theorem countP_isOn_concat : (before ++ [casting]).countP (·.isOn name) =
    before.countP (·.isOn name) + if casting.instrument.name = name then 1 else 0 := by
  rw [List.countP_append, List.countP_singleton]
  simp only [Casting.isOn, decide_eq_true_eq]

/-- How often castings have been on each instrument. -/
def Tally (counts : Concert.Counts) (before : List Casting) : Prop :=
  ∀ name, (counts.find? name).getD 0 = before.countP (·.isOn name)

theorem Tally.add (h : Tally counts before) (casting : Casting) :
    Tally (counts.insert casting.instrument.name
      ((counts.find? casting.instrument.name).getD 0 + 1)) (before ++ [casting]) := by
  intro name
  rw [Table.find?_insert, countP_isOn_concat, ← h name]
  split
  next hname => rw [Option.getD_some, hname, if_pos rfl]
  next hname => rw [if_neg (Ne.symm hname), Nat.add_zero]

/-- Castings played one after another, each under the id that it gets after those before. -/
inductive Billed (settings : Settings) (ending : String) :
    (before castings : List Casting) → List Performance → Prop
  | nil {before : List Casting} : Billed settings ending before [] []
  | cons {before castings : List Casting} {casting : Casting} {performance : Performance}
      {performances : List Performance} (hplayed : casting.PlayedAs settings performance)
      (hid : performance.id = Concert.trackId casting.track casting.instrument
        ((before ++ [casting]).countP (·.isOn casting.instrument.name)) ++ ending)
      (h : Billed settings ending (before ++ [casting]) castings performances) :
      Billed settings ending before (casting :: castings) (performance :: performances)

namespace Billed

theorem append (h : Billed settings ending before castings performances)
    (h' : Billed settings ending (before ++ castings) more others) :
    Billed settings ending before (castings ++ more) (performances ++ others) := by
  induction h with
  | nil =>
    rw [List.append_nil] at h'
    exact h'
  | cons hplayed hid _ ih =>
    rw [List.append_cons] at h'
    exact .cons hplayed hid (ih h')

theorem played (h : Billed settings ending before castings performances) :
    List.Forall₂ (Casting.PlayedAs settings) castings performances := by
  induction h with
  | nil => exact .nil
  | cons hplayed _ _ ih => exact .cons hplayed ih

theorem exists_number (h : Billed settings ending before castings performances) :
    ∀ x ∈ castings.zip performances, ∃ n, before.countP (·.isOn x.1.instrument.name) < n ∧
      x.2.id = Concert.trackId x.1.track x.1.instrument n ++ ending := by
  induction h with
  | nil => exact nofun
  | @cons before castings casting performance performances _ hid _ ih =>
    have hstep (name : String) :
        before.countP (·.isOn name) ≤ (before ++ [casting]).countP (·.isOn name) :=
      (List.sublist_append_left _ _).countP_le
    rw [List.zip_cons_cons]
    refine List.forall_mem_cons.mpr ⟨⟨_, ?_, hid⟩, fun x hx ↦ ?_⟩
    · rw [countP_isOn_concat, if_pos rfl]
      exact Nat.lt_succ_self _
    · obtain ⟨n, hlt, hn⟩ := ih x hx
      exact ⟨n, (hstep _).trans_lt hlt, hn⟩

theorem distinct (h : Billed settings ending before castings performances) :
    (castings.zip performances).Pairwise fun x y ↦
      x.1.track.id = "" → y.1.track.id = "" → x.2.id ≠ y.2.id := by
  have hunnamed {casting : Casting} (h : casting.track.id = "") (n : Nat) :
      Concert.trackId casting.track casting.instrument n = casting.instrument.name ++ "#" ++
      toString n := by
    rw [Concert.trackId, h]
    rfl
  induction h with
  | nil => exact .nil
  | @cons before castings casting performance performances _ hid hrest ih =>
    rw [List.zip_cons_cons]
    refine .cons (fun x hx hfirst hlater hsame ↦ ?_) ih
    obtain ⟨n, hlt, hn⟩ := hrest.exists_number x hx
    rw [hid, hn, hunnamed hfirst, hunnamed hlater] at hsame
    obtain ⟨hname, rfl⟩ := numbered_inj hsame
    rw [hname] at hlt
    exact Nat.lt_irrefl _ hlt

end Billed

namespace Concert

theorem billed_playInstruments {track : Track} {instruments : List Instrument}
    (hr : ∀ performance, (r.plugins.complete performance).id = performance.id ++ ending)
    (hc : Tally counts before)
    (h : (playInstruments settings track instruments counts).result r =
      some (.ok (performances, counts'), r')) :
    Billed settings ending before (instruments.map (⟨track, ·⟩)) performances ∧
      Tally counts' (before ++ instruments.map (⟨track, ·⟩)) := by
  induction instruments generalizing counts before performances r with
  | nil =>
    cases h
    rw [List.map_nil, List.append_nil]
    exact ⟨.nil, hc⟩
  | cons instrument rest ih =>
    rw [result_playInstruments_cons] at h
    obtain ⟨performance, r₁, hfirst, h⟩ := result_bind_eq_ok.mp h
    obtain ⟨answer, hperform, he⟩ := Option.map_eq_some_iff.mp hfirst
    cases he
    obtain ⟨⟨later, counts''⟩, r₂, hlater, h⟩ := result_bind_eq_ok.mp h
    cases h
    obtain ⟨p, hp, hid⟩ := id_of_perform hperform
    have htally := hc.add ⟨track, instrument⟩
    obtain ⟨hbilled, hcounts⟩ := ih hr htally hlater
    rw [List.map_cons, List.append_cons]
    refine ⟨.cons ⟨_, _, hperform⟩ ?_ hbilled, hcounts⟩
    have hnumber := htally instrument.name
    rw [Table.find?_insert, if_pos rfl, Option.getD_some] at hnumber
    rw [hp, hr, hid, hnumber]

theorem billed_playTracks {tracks : List Track}
    (hr : ∀ performance, (r.plugins.complete performance).id = performance.id ++ ending)
    (hc : Tally counts before)
    (h : (playTracks settings tracks counts).result r = some (.ok performances, r')) :
    Billed settings ending before (tracks.flatMap Track.castings) performances := by
  induction tracks generalizing counts before performances r with
  | nil =>
    cases h
    exact .nil
  | cons track rest ih =>
    have hplugins : (r.introduce track).plugins = r.plugins := by
      rw [Repertoire.introduce_eq]
      rfl
    rw [result_playTracks_cons] at h
    obtain ⟨_, r₁, hintroduced, h⟩ := result_bind_eq_ok.mp h
    cases hintroduced
    obtain ⟨⟨played, counts'⟩, r₂, hplayed, h⟩ := result_bind_eq_ok.mp h
    obtain rfl := eq_of_playInstruments hplayed
    obtain ⟨later, r₃, hlater, h⟩ := result_bind_eq_ok.mp h
    cases h
    rw [← hplugins] at hr
    obtain ⟨hbilled, hcounts⟩ := billed_playInstruments hr hc hplayed
    exact hbilled.append (ih hr hcounts hlater)

end Concert

end Billing

/-- A performance of a section has one of each of its castings, in order, and the tracks without ids
of their own have been given different ones. -/
structure SectionPerformance.Presents (p : SectionPerformance) (s : Section) : Prop where
  played : List.Forall₂ (Casting.PlayedAs p.settings) s.castings p.tracks
  distinct : (s.castings.zip p.tracks).Pairwise fun x y ↦
    x.1.track.id = "" → y.1.track.id = "" → x.2.id ≠ y.2.id

namespace Concert

variable {r r' : Repertoire} {global global' : Settings} {s : Section} {sections : List Section}

theorem presents_of_playSection {performance : Option SectionPerformance}
    (hr : r.plugins.OnlyAppendToIds)
    (h : (playSection global s).result r = some (.ok (global', performance), r')) :
    (performance = none ∧ s.castings = []) ∨ ∃ p, performance = some p ∧ s.castings ≠ [] ∧
    p.Presents s := by
  obtain ⟨ending, hending⟩ := hr.exists_ending
  obtain ⟨⟨left, prologRemarks⟩, r₁, hprolog, hleft⟩ := result_bind_eq_ok.mp h
  obtain rfl := eq_of_applyCalls hprolog
  obtain ⟨⟨settings, remarks⟩, r₂, hsettings, hset⟩ := result_bind_eq_ok.mp hleft
  obtain rfl := eq_of_applyCalls hsettings
  obtain ⟨played, r₃, hplayed, hend⟩ := result_bind_eq_ok.mp hset
  have hbilled : Billed settings ending [] s.castings played :=
    billed_playTracks hending (fun _ ↦ rfl) hplayed
  have hlength := hbilled.played.length_eq
  dsimp only at hend
  split at hend
  next hnone =>
    cases hend
    rw [List.isEmpty_iff.mp hnone] at hlength
    exact .inl ⟨rfl, List.eq_nil_of_length_eq_zero hlength⟩
  next hsome =>
    cases hend
    refine .inr ⟨_, rfl, ?_, hbilled.played, hbilled.distinct⟩
    intro hnil
    rw [hnil] at hlength
    exact hsome (List.isEmpty_iff.mpr (List.eq_nil_of_length_eq_zero hlength.symm))

theorem presents_of_playSections {performances : List SectionPerformance}
    (hr : r.plugins.OnlyAppendToIds)
    (h : (playSections global sections).result r = some (.ok performances, r')) :
    List.Forall₂ (fun s p ↦ p.Presents s) (sections.filter (!·.castings.isEmpty)) performances := by
  induction sections generalizing r global performances with
  | nil =>
    cases h
    exact .nil
  | cons s rest ih =>
    obtain ⟨⟨left, performance⟩, r₁, hsection, h⟩ := result_bind_eq_ok.mp h
    obtain ⟨later, r₂, hlater, h⟩ := result_bind_eq_ok.mp h
    cases h
    obtain ⟨-, rfl⟩ := playSection_ok hsection
    have hplugins : (r.defineAll s.definitions).plugins.OnlyAppendToIds := hr
    have hrest := ih hplugins hlater
    obtain ⟨rfl, hnone⟩ | ⟨p, rfl, hsome, hpresents⟩ := presents_of_playSection hr hsection
    · rw [List.filter_cons_of_neg (by simp [hnone])]
      exact hrest
    · rw [List.filter_cons_of_pos (by simp [hsome])]
      exact .cons hpresents hrest

/-- In every section that has tracks to play, the tracks without ids of their own are given
different ones on all their instruments, whatever the instruments are called, as long as plugins
only append to ids. -/
theorem play_tells_tracks_apart {performances : List SectionPerformance} {score : Score}
    (hr : r.plugins.OnlyAppendToIds) (h : (play score).result r = some (.ok performances, r')) :
    List.Forall₂ (fun s p ↦ p.Presents s) (score.sections.filter (!·.castings.isEmpty))
      performances := by
  rw [play, result_get_bind] at h
  exact presents_of_playSections hr h

namespace Sharps

def repertoire : Repertoire :=
  Repertoire.standard.addPlugin "Mute"
    { revise := fun _ events ↦ events.map ({ · with volume := 0 })
      revise_length := fun _ _ ↦ List.length_map _
      complete := fun p ↦ { p with id := p.id ++ "!" } }

def score : Score where
  sections :=
    [{ tracks :=
        [{ instruments := [{ name := "A" }, { name := "A#1" }, { name := "A" }] },
          { id := "A", name := some "B", instruments := [{ name := "A" }] },
          { instruments := [{ name := "A#1" }, { name := "A" }], content := [.theme "B"] }] }]

end Sharps

open Sharps in
theorem play_tells_tracks_apart_sharps :
    repertoire.plugins.OnlyAppendToIds ∧ ∃ performances r',
      (play score).result repertoire = some (.ok performances, r') ∧
      performances.map (·.tracks.map (·.id)) =
        [["A#1!", "A#1#1!", "A#2!", "A#A!", "A#1#2!", "A#4!"]] ∧
      List.Forall₂ (fun s p ↦ p.Presents s) (score.sections.filter (!·.castings.isEmpty))
        performances := by
  have hplugins : repertoire.plugins.OnlyAppendToIds :=
    List.forall_mem_singleton.mpr ⟨"!", fun _ ↦ rfl⟩
  obtain ⟨performances, r', hplayed, hids⟩ := exists_of_result?
    (f := fun performances ↦ performances.map (·.tracks.map (·.id)))
    (b := [["A#1!", "A#1#1!", "A#2!", "A#A!", "A#1#2!", "A#4!"]])
    (x := (play score).result repertoire) (by decide +kernel)
  exact ⟨hplugins, performances, r', hplayed, hids, play_tells_tracks_apart hplugins hplayed⟩

end Concert

end Rendition
