import Rendition.Proofs.Play.Answering
import Rendition.Proofs.Play.Nesting
import Rendition.Proofs.Sound.Findings

namespace Rendition

/-- What a symbol is played as where it is played as a passage of its own: the content as it is
written, and the symbols that are played. -/
inductive Symbol.PlayedAs (r : Repertoire) : Symbol → List Symbol → List Symbol → Prop
  | phrase (times : Int32) (content : List Symbol) :
      PlayedAs r (.phrase times content) content (Repetition.unfold content times.toInt).1
  | theme {name : String} {content : List Symbol} (h : r.themes.find? name = some content) :
      PlayedAs r (.theme name) content (Repetition.unfold content (-1)).1
  | call {name : String} {arguments : List Argument} {argument : Argument} {phrase : Phrase}
      (hname : name ∈ Script.players) (ha : arguments[1]? = some argument)
      (hv : Value.ofArgument argument = .ok (.phrase phrase)) :
      PlayedAs r (.call name arguments) phrase.content phrase.written.1

namespace Finding

def isGeneral : Finding → Bool
  | .fadeOverLong .. | .unknownInstrument _ => true
  | _ => false

/-- The symbol gives rise to the finding where it is played. -/
inductive Concerns (r : Repertoire) : Finding → Symbol → Prop
  | note {finding : Finding} (note : Note) (h : finding.isOfNote) : Concerns r finding (.note note)
  | barLine (expected actual time : Float) (bar : BarLine) :
      Concerns r (.barLength expected actual time) (.barLine bar)
  | passage (expected actual time : Float) {symbol : Symbol} {written played : List Symbol}
      (h : symbol.PlayedAs r written played) : Concerns r (.barLength expected actual time) symbol
  | theme (name : String) : Concerns r (.recursiveTrack name) (.theme name)
  | unknown {name : String} (arguments : List Argument) (h : r.functions.find? name = none) :
      Concerns r (.unknownFunction name) (.call name arguments)
  | formula (name : String) {arguments : List Argument} {source : String} {fault : Formula.Fault}
      (hmem : .formula source ∈ arguments) (h : Formula.evaluate source = .error fault) :
      Concerns r (.badExpression source fault.message) (.call name arguments)
  | call (name message : String) (arguments : List Argument) :
      Concerns r (.function name message) (.call name arguments)

/-- The symbol gives rise to the finding where the content that it is written in is repeated. -/
def Marks : Finding → Symbol → Prop
  | .unexpectedCoda, symbol | .multiCoda, symbol => symbol.isCoda
  | .unexpectedVolta order, symbol => Repetition.unexpectedOrder? symbol = some order
  | _, _ => False

variable {r : Repertoire} {finding : Finding} {symbol : Symbol}

theorem Concerns.isGeneral_eq_false (h : finding.Concerns r symbol) :
    finding.isGeneral = false := by
  cases h with
  | note note h => cases finding <;> first | rfl | cases h
  | _ => rfl

theorem Marks.isGeneral_eq_false (h : finding.Marks symbol) : finding.isGeneral = false := by
  cases finding <;> first | rfl | cases h

end Finding

/-- The indices lead from symbols that are played to what gives rise to the finding: each but the
last to a symbol that is played as a passage, the next into that passage. Overlay voices that do not
end together show at the last symbol of their passage. What is amiss with codas and voltas shows in
the content as it is written. -/
inductive Points (r : Repertoire) : List Symbol → List Nat → Finding → Prop
  | here {symbols : List Symbol} {index : Nat} {symbol : Symbol} {finding : Finding}
      (h : symbols[index]? = some symbol) (hc : finding.Concerns r symbol) :
      Points r symbols [index] finding
  | ending {symbols : List Symbol} {index : Nat} (longest : Float) (durations : List Float)
      (h : index + 1 = symbols.length) : Points r symbols [index] (.diffDuration longest durations)
  | inside {symbols : List Symbol} {index : Nat} {symbol : Symbol} {written played : List Symbol}
      {path : List Nat} {finding : Finding} (h : symbols[index]? = some symbol)
      (hp : symbol.PlayedAs r written played) (hinner : Points r played path finding) :
      Points r symbols (index :: path) finding
  | marking {symbols : List Symbol} {index : Nat} {symbol : Symbol} {written played : List Symbol}
      {place : Nat} {mark : Symbol} {finding : Finding} (h : symbols[index]? = some symbol)
      (hp : symbol.PlayedAs r written played) (hw : written[place]? = some mark)
      (hm : finding.Marks mark) : Points r symbols [index, place] finding

namespace Points

variable {r : Repertoire} {symbols : List Symbol} {path : List Nat} {finding : Finding}

theorem path_ne_nil (h : Points r symbols path finding) : path ≠ [] := by
  cases h <;> exact List.cons_ne_nil _ _

theorem isGeneral_eq_false (h : Points r symbols path finding) : finding.isGeneral = false := by
  induction h with
  | here _ hc => exact hc.isGeneral_eq_false
  | ending => rfl
  | inside _ _ _ ih => exact ih
  | marking _ _ _ hm => exact hm.isGeneral_eq_false

theorem at_time {expected actual time : Float}
    (h : Points r symbols path (.barLength expected actual time)) (time' : Float) :
    Points r symbols path (.barLength expected actual time') := by
  generalize hf : Finding.barLength expected actual time = finding at h
  induction h with
  | here hget hc =>
    subst hf
    cases hc with
    | note _ h => cases h
    | barLine => exact .here hget (.barLine ..)
    | passage _ _ _ hp => exact .here hget (.passage _ _ _ hp)
  | ending => cases hf
  | inside hget hp _ ih => exact .inside hget hp (ih hf)
  | marking _ _ _ hm =>
    subst hf
    cases hm

end Points

namespace Remark

def indices (remark : Remark) : List Nat := remark.path.map Place.index

def MarksIn (written : List Symbol) (remark : Remark) : Prop :=
  ∃ place mark, written[place]? = some mark ∧ remark.indices = [place] ∧ remark.finding.Marks mark

variable {r : Repertoire} {symbols written played : List Symbol} {symbol : Symbol} {remark : Remark}

theorem points_within {place : Place} (hat : symbols[place.index]? = some symbol)
    (hp : symbol.PlayedAs r written played)
    (h : remark.MarksIn written ∨ Points r played remark.indices remark.finding) (time : Float) :
    Points r symbols (remark.within place time).indices (remark.within place time).finding := by
  have hsame : Points r symbols (place.index :: remark.indices) remark.finding := by
    obtain ⟨place', mark, hw, hindices, hm⟩ | hinner := h
    · rw [hindices]
      exact .marking hat hp hw hm
    · exact .inside hat hp hinner
  obtain ⟨finding, path⟩ := remark
  cases finding with
  | barLength => exact hsame.at_time _
  | _ => exact hsame

end Remark

namespace Repetition

variable {content : List Symbol} {times : Int} {index : Nat}

theorem getElem?_of_mem_codas (h : index ∈ codas content) :
    ∃ symbol, content[index]? = some symbol ∧ symbol.isCoda := by
  obtain ⟨⟨symbol, _⟩, hmem, rfl⟩ := List.mem_map.mp h
  obtain ⟨hzip, hcoda⟩ := List.mem_filter.mp hmem
  exact ⟨symbol, List.mem_zipIdx_iff_getElem?.mp hzip, hcoda⟩

theorem getElem?_of_body {symbol : Symbol} (h : (body content times)[index]? = some symbol)
    (hs : symbol.isCoda) :
    content[index]? = some symbol := by
  unfold body at h
  split at h
  · obtain hlt | hle := Nat.lt_or_ge index content.length
    · rwa [List.getElem?_append_left hlt] at h
    · rw [List.getElem?_append_right hle] at h
      obtain rfl := List.mem_singleton.mp (List.mem_of_getElem? h)
      cases hs
  · exact h

theorem marksIn_of_mem_unfold {remark : Remark} (h : remark ∈ (unfold content times).2) :
    remark.MarksIn content := by
  unfold unfold at h
  split at h
  · obtain ⟨index, hcoda, rfl⟩ := List.mem_map.mp h
    obtain ⟨symbol, hget, hs⟩ := getElem?_of_mem_codas hcoda
    exact ⟨index, symbol, hget, rfl, hs⟩
  · obtain hvolta | hcoda := List.mem_append.mp h
    · obtain ⟨⟨symbol, index⟩, hzip, hr⟩ := List.mem_filterMap.mp hvolta
      obtain ⟨order, horder, rfl⟩ := Option.map_eq_some_iff.mp hr
      exact ⟨index, symbol, List.mem_zipIdx_iff_getElem?.mp hzip, rfl, horder⟩
    · obtain ⟨index, hdrop, rfl⟩ := List.mem_map.mp hcoda
      obtain ⟨symbol, hget, hs⟩ := getElem?_of_mem_codas (List.mem_of_mem_drop hdrop)
      exact ⟨index, symbol, getElem?_of_body hget hs, rfl, hs⟩

end Repetition

theorem Phrase.marksIn_of_mem_written {phrase : Phrase} {remark : Remark}
    (h : remark ∈ phrase.written.2) :
    remark.MarksIn phrase.content := by
  unfold written at h
  split at h
  · cases h
  · exact Repetition.marksIn_of_mem_unfold h

namespace Progress

variable (p : Progress)

@[simp] theorem index_lengthen (beats : Float) : (p.lengthen beats).index = p.index := by
  unfold lengthen
  split <;> rfl

@[simp] theorem index_nextVoice : p.nextVoice.index = p.index := by
  unfold nextVoice
  dsimp only
  split <;> rfl

end Progress

/-- Remarks that a scope has gained point into the symbols being played. It still is at the same
one. -/
structure Scope.PointsInto (r : Repertoire) (symbols : List Symbol)
    (scope scope' : Scope) : Prop where
  index : scope'.progress.index = scope.progress.index
  remarks : ∀ remark ∈ scope'.remarks, remark ∈ scope.remarks ∨
    Points r symbols remark.indices remark.finding

namespace Scope

variable {r : Repertoire} {symbols : List Symbol} {scope scope' : Scope}

namespace PointsInto

theorem of_eq (hi : scope'.progress.index = scope.progress.index)
    (hr : scope'.remarks = scope.remarks) :
    scope.PointsInto r symbols scope' := ⟨hi, fun _ h ↦ .inl (hr ▸ h)⟩

theorem trans {scope'' : Scope} (h : scope.PointsInto r symbols scope')
    (h' : scope'.PointsInto r symbols scope'') :
    scope.PointsInto r symbols scope'' where
  index := h'.index.trans h.index
  remarks remark hmem := (h'.remarks remark hmem).elim (h.remarks remark) .inr

theorem of_settings {settings : Settings}
    (h : ({ scope with settings }).PointsInto r symbols scope') :
    scope.PointsInto r symbols scope' := ⟨h.index, h.remarks⟩

theorem append {added : List Remark} (hi : scope'.progress.index = scope.progress.index)
    (hr : scope'.remarks = scope.remarks ++ added)
    (ha : ∀ remark ∈ added, Points r symbols remark.indices remark.finding) :
    scope.PointsInto r symbols scope' where
  index := hi
  remarks remark hmem := (List.mem_append.mp (hr ▸ hmem)).imp_right (ha remark)

end PointsInto

variable {stage : Stage} {player : Player} {symbol : Symbol} {written played : List Symbol}

section At

variable (hat : symbols[scope.progress.index]? = some symbol)
include hat

theorem pointsInto_remark {finding : Finding} (h : finding.Concerns r symbol) :
    scope.PointsInto r symbols (scope.remark finding) :=
  .append rfl rfl (List.forall_mem_singleton.mpr (.here hat h))

theorem points_of_mem_barRemarks {beats time : Float} (hc : ∀ expected actual time,
    (Finding.barLength expected actual time).Concerns r symbol) {remark : Remark}
    (h : remark ∈ scope.barRemarks beats time) :
    Points r symbols remark.indices remark.finding := by
  unfold barRemarks at h
  split at h
  · cases h
  · obtain rfl := List.mem_singleton.mp h
    exact .here hat (hc _ _ _)

end At

theorem pointsInto_noted (s : Session) (note : Note)
    (hat : symbols[scope.progress.index]? = some (.note note)) :
    scope.PointsInto r symbols (scope.noted stage s note).1 := by
  refine .append (Progress.index_lengthen _ _) rfl ?_
  intro remark hmem
  obtain ⟨hnote, hpath⟩ := Note.isOfNote_of_mem_play hmem
  rw [Remark.indices, hpath]
  exact .here hat (.note note hnote)

theorem pointsInto_playBarLine (bar : BarLine)
    (hat : symbols[scope.progress.index]? = some (.barLine bar)) :
    scope.PointsInto r symbols (scope.playBarLine bar) := by
  have hend : scope.PointsInto r symbols (scope.endBar bar.terminal) := by
    rw [endBar_eq]
    split
    · exact .of_eq rfl rfl
    · refine .append rfl rfl ?_
      intro remark hmem
      split at hmem
      · cases hmem
      · exact points_of_mem_barRemarks hat (.barLine · · · bar) hmem
  unfold playBarLine
  dsimp only
  split
  · exact hend.trans (.of_eq (Progress.index_nextVoice _) rfl)
  · exact hend

theorem pointsInto_joinBars (hat : symbols[scope.progress.index]? = some symbol)
    (hp : symbol.PlayedAs r written played) (inner : Progress) :
    scope.PointsInto r symbols (scope.joinBars inner) := by
  rw [joinBars_eq]
  split
  · exact .of_eq (Progress.index_lengthen _ _) rfl
  · refine .append rfl rfl ?_
    intro remark hmem
    split at hmem
    · cases hmem
    · exact points_of_mem_barRemarks hat (.passage · · · hp) hmem

theorem pointsInto_absorb (hat : symbols[scope.progress.index]? = some symbol)
    (hp : symbol.PlayedAs r written played) {passage : Passage}
    (h : ∀ remark ∈ passage.remarks,
      remark.MarksIn written ∨ Points r played remark.indices remark.finding) :
    scope.PointsInto r symbols (scope.absorb stage passage) := by
  have hbars : scope.PointsInto r symbols (scope.joinBars passage.progress) :=
    pointsInto_joinBars hat hp _
  refine hbars.trans (.append rfl rfl ?_)
  intro remark hmem
  obtain ⟨remark, hremark, rfl⟩ := List.mem_map.mp hmem
  exact Remark.points_within hat hp (h remark hremark) _

end Scope

def Player.PointsInside (r : Repertoire) (player : Player) : Prop :=
  ∀ settings remarks symbols s passage s', outcome (player settings remarks symbols) s =
    some (.ok passage, s') →
    ∀ remark ∈ passage.remarks, remark ∈ remarks ∨ Points r symbols remark.indices remark.finding

namespace Scope

section Run

variable {stage : Stage} {player : Player} {scope scope' : Scope} {s s' : Session}
  {symbols : List Symbol} {symbol : Symbol} (hplayer : player.PointsInside stage.repertoire)
include hplayer

theorem pointsInto_call (hr : stage.repertoire.OnlyStandard) {name : String}
    {arguments : List Argument} {values : List Value} {function : Function}
    {res : Except Fault (Option Passage)} {scope₁ : Scope} {s₁ : Session}
    (hat : symbols[scope.progress.index]? = some (.call name arguments))
    (hf : stage.repertoire.functions.find? name = some function)
    (hv : arguments.mapM Value.ofArgument = .ok values)
    (h : (answer stage player name function.access (function.body name values) scope).run s =
      some ((res, scope₁), s₁)) (hreceive : (scope₁.receive stage s₁ name res).1 = .ok scope') :
    scope.PointsInto stage.repertoire symbols scope' := by
  obtain ⟨⟨settings, rfl⟩, -⟩ := modestly_of_call hr hf h
  have hset : symbols[({ scope with settings }).progress.index]? = some (.call name arguments) :=
    hat
  match res, hreceive with
  | .ok none, hreceive =>
    cases hreceive
    exact .of_eq rfl rfl
  | .ok (some passage), hreceive =>
    cases hreceive
    obtain ⟨phrase, overrides, s₂, s₃, hlends, hplayed⟩ :=
      (answered_of_call hr hf h).played passage rfl
    obtain ⟨argument, ha, hargument⟩ := Value.getElem?_mapM hv hlends.phrase_at
    have hp : (Symbol.call name arguments).PlayedAs stage.repertoire phrase.content
        phrase.written.1 :=
      .call hlends.mem_players ha hargument
    exact .of_settings (pointsInto_absorb hset hp fun remark hremark ↦
      (hplayer _ _ _ _ _ _ hplayed remark hremark).imp_left Phrase.marksIn_of_mem_written)
  | .error (.undefinedTheme ..), hreceive => cases hreceive
  | .error (.setting ..), hreceive | .error (.argument ..), hreceive =>
    cases hreceive
    exact .of_settings (pointsInto_remark hset (.call name _ arguments))

theorem pointsInto_repeated {content : List Symbol} {times : Int} {passage : Passage}
    (hat : symbols[scope.progress.index]? = some symbol)
    (hp : symbol.PlayedAs stage.repertoire content (Repetition.unfold content times).1)
    (h : outcome (scope.playRepeated player content times) s = some (.ok passage, s')) :
    scope.PointsInto stage.repertoire symbols (scope.absorb stage passage) :=
  pointsInto_absorb hat hp fun remark hremark ↦
    (hplayer _ _ _ _ _ _ h remark hremark).imp_left Repetition.marksIn_of_mem_unfold

theorem pointsInto_symbol (hr : stage.repertoire.OnlyStandard)
    (hat : symbols[scope.progress.index]? = some symbol)
    (h : outcome (scope.playSymbol stage player symbol) s = some (.ok scope', s')) :
    scope.PointsInto stage.repertoire symbols scope' := by
  have hstep := step_of_outcome h
  generalize hres : Except.ok scope' = res at hstep
  cases hstep with
  | note note =>
    obtain rfl := Except.ok.inj hres
    exact pointsInto_noted s note hat
  | barLine bar =>
    obtain rfl := Except.ok.inj hres
    exact pointsInto_playBarLine bar hat
  | tie | marking | inert =>
    obtain rfl := Except.ok.inj hres
    exact .of_eq rfl rfl
  | undefined => cases hres
  | phrase times content res s₁ hplay =>
    cases res with
    | error fault => cases hres
    | ok passage =>
      obtain rfl := Except.ok.inj hres
      exact pointsInto_repeated hplayer hat (.phrase times content) hplay
  | theme name content hc ha res s₁ hplay =>
    cases res with
    | error fault => cases hres
    | ok passage =>
      obtain rfl := Except.ok.inj hres
      exact pointsInto_repeated hplayer hat (.theme hc) hplay
  | active name =>
    obtain rfl := Except.ok.inj hres
    exact pointsInto_remark hat (.theme name)
  | unknown name arguments hf =>
    obtain rfl := Except.ok.inj hres
    exact pointsInto_remark hat (.unknown arguments hf)
  | formula name arguments function source fault hf hv =>
    obtain rfl := Except.ok.inj hres
    obtain ⟨argument, hmem, he⟩ := error_of_mapM hv
    obtain ⟨rfl, hevaluate⟩ := Value.formula_of_error he
    exact pointsInto_remark hat (.formula name hmem hevaluate)
  | call name arguments function values hf hv res scope₁ s₁ hrun =>
    exact pointsInto_call hplayer hr hat hf hv hrun hres.symm

theorem points_of_playFrom (hr : stage.repertoire.OnlyStandard) {index : Nat} {rest : List Symbol}
    (hrest : symbols.drop index = rest)
    (h : outcome (scope.playFrom stage player index rest) s = some (.ok scope', s')) :
    (∀ remark ∈ scope'.remarks,
      remark ∈ scope.remarks ∨ Points stage.repertoire symbols remark.indices remark.finding) ∧
    (rest = [] ∧ scope' = scope ∨ scope'.progress.index + 1 = symbols.length) := by
  induction rest generalizing index scope s with
  | nil =>
    cases h
    exact ⟨fun _ ↦ .inl, .inl ⟨rfl, rfl⟩⟩
  | cons symbol rest ih =>
    rw [outcome_playFrom_cons, andThen_eq_ok] at h
    obtain ⟨scope₁, s₁, hsymbol, hplayed⟩ := h
    obtain ⟨hget, hdrop, -⟩ := of_drop_eq_cons hrest
    have hat : symbols[(scope.atIndex index).progress.index]? = some symbol := hget
    have hinto := pointsInto_symbol hplayer hr hat hsymbol
    obtain ⟨hremarks, hend⟩ := ih hdrop hplayed
    refine ⟨fun remark hmem ↦ (hremarks remark hmem).elim (hinto.remarks remark) .inr, .inr ?_⟩
    -- After the last symbol the scope still is at its index.
    obtain ⟨rfl, rfl⟩ | hend := hend
    · have hlength := congrArg List.length hrest
      rw [List.length_drop, List.length_singleton] at hlength
      rw [hinto.index]
      change index + 1 = symbols.length
      omega
    · exact hend

end Run

variable {scope : Scope}

theorem mem_remarks_conclude {s : Session} {remark : Remark}
    (h : remark ∈ (scope.conclude s).remarks) :
    remark ∈ scope.remarks ∨ scope.progress.voices ≠ [] ∧ remark.indices = [scope.progress.index] ∧
      ∃ longest durations, remark.finding = .diffDuration longest durations := by
  change remark ∈ scope.settleVoices.remarks at h
  unfold settleVoices at h
  dsimp only at h
  split at h
  · exact .inl h
  next hvoices =>
    split at h
    · obtain h | h := List.mem_append.mp h
      · exact .inl h
      · obtain rfl := List.mem_singleton.mp h
        refine .inr ⟨fun he ↦ hvoices (List.isEmpty_iff.mpr he), ?_, _, _, rfl⟩
        exact congrArg (fun index ↦ [index]) (Progress.index_nextVoice _)
    · exact .inl h

theorem points_of_conclude {stage : Stage} {player : Player}
    (hplayer : player.PointsInside stage.repertoire) (hr : stage.repertoire.OnlyStandard)
    {symbols : List Symbol} {s s' : Session} {scope' : Scope} (hvoices : scope.progress.voices = [])
    (h : outcome (scope.playFrom stage player 0 symbols) s = some (.ok scope', s')) :
    ∀ remark ∈ (scope'.conclude s').remarks,
      remark ∈ scope.remarks ∨ Points stage.repertoire symbols remark.indices remark.finding := by
  obtain ⟨hremarks, hend⟩ := points_of_playFrom hplayer hr (List.drop_zero) h
  intro remark hmem
  obtain hmem | ⟨hne, hindices, longest, durations, hfinding⟩ := mem_remarks_conclude hmem
  · exact hremarks remark hmem
  · obtain ⟨-, rfl⟩ | hend := hend
    -- Without symbols there are no voices that could end apart.
    · exact absurd hvoices hne
    · rw [hindices, hfinding]
      exact .inr (.ending longest durations hend)

end Scope

theorem playerOf_pointsInside {stage : Stage} (hr : stage.repertoire.OnlyStandard) (depth : Nat) :
    (playerOf stage depth).PointsInside stage.repertoire := by
  intro settings remarks symbols s passage s' h
  refine playerOf_induction (P := fun _ remarks symbols _ r _ ↦ ∀ passage, r = .ok passage →
    ∀ remark ∈ passage.remarks, remark ∈ remarks ∨
    Points stage.repertoire symbols remark.indices remark.finding) ?_ depth h passage rfl
  intro depth ih settings remarks symbols s r s' hrun passage he
  cases r with
  | error fault => cases he
  | ok scope =>
    obtain rfl := Except.ok.inj he
    exact Scope.points_of_conclude (fun _ _ _ _ _ _ h ↦ ih _ _ _ _ _ _ h _ rfl) hr rfl hrun

theorem Performance.isGeneral_of_mem_finalRemarks {settings : Settings} {duration : Float}
    {instrument : String} {remark : Remark}
    (h : remark ∈ finalRemarks settings duration instrument) :
    remark.path = [] ∧ remark.finding.isGeneral := by
  obtain h | h := List.mem_append.mp h
  · obtain ⟨fade, -, rfl⟩ := List.mem_map.mp h
    exact ⟨rfl, rfl⟩
  · split at h
    · cases h
    · obtain rfl := List.mem_singleton.mp h
      exact ⟨rfl, rfl⟩

theorem Performance.mem_of_mem_dropFinalShort {duration : Float} {remarks : List Remark}
    {remark : Remark} (h : remark ∈ dropFinalShort duration remarks) : remark ∈ remarks :=
  List.mem_reverse.mp (List.mem_of_mem_eraseP (List.mem_reverse.mp h))

/-- Every remark on a track points at what gives rise to it, from the symbols of the track inwards;
only what is about the whole track has no place. -/
theorem perform_remarks_point {r : Repertoire} (hr : r.OnlyStandard) (hp : r.plugins = ∅)
    {settings : Settings} {instrument : Instrument} {id : String} {name : Option String}
    {content : List Symbol} {performance : Performance}
    (h : perform r settings instrument id name content = some (.ok performance)) :
    ∀ remark ∈ performance.remarks, (remark.path = [] ↔ remark.finding.isGeneral) ∧
      (remark.path ≠ [] → Points r (instrument.opening ++ content) remark.indices
        remark.finding) := by
  rw [perform_eq] at h
  obtain ⟨⟨answer, s'⟩, hplayed, he⟩ := Option.map_eq_some_iff.mp h
  cases answer with
  | error fault => cases he
  | ok played =>
    obtain ⟨last, passage⟩ := played
    obtain ⟨scope, hrun, rfl, rfl⟩ := playTrack_ok hplayed
    rw [hp] at he
    cases he
    intro remark hmem
    obtain hmem | hmem := List.mem_append.mp hmem
    · have hstage : (r.stage instrument).repertoire.OnlyStandard := hr
      obtain hnone | hpoints :=
        Scope.points_of_conclude (playerOf_pointsInside hstage _) hstage rfl hrun remark
          (Performance.mem_of_mem_dropFinalShort hmem)
      · cases hnone
      · have hne : remark.path ≠ [] :=
          fun hnil ↦ hpoints.path_ne_nil (congrArg (List.map Place.index) hnil)
        refine ⟨⟨fun hnil ↦ absurd hnil hne, fun hgeneral ↦ ?_⟩, fun _ ↦ hpoints⟩
        rw [hpoints.isGeneral_eq_false] at hgeneral
        cases hgeneral
    · obtain ⟨hnil, hgeneral⟩ := Performance.isGeneral_of_mem_finalRemarks hmem
      exact ⟨⟨fun _ ↦ hgeneral, fun _ ↦ hnil⟩, fun hne ↦ absurd hnil hne⟩

namespace Lost

def content : List Symbol :=
  [.phrase 2 [.barLine { skip := true }, .call "Trill" []],
    .call "Transpose" [.number 2, .symbol (.phrase (-1) [.space, .call "Trill" []])]]

def remarks : List (Finding × List Nat) :=
  [(.unexpectedCoda, [0, 0]), (.unknownFunction "Trill", [0, 1]),
    (.unknownFunction "Trill", [0, 4]), (.unknownFunction "Trill", [1, 1])]

end Lost

theorem perform_remarks_point_lost : ∃ performance,
    perform .standard {} {} "" none Lost.content = some (.ok performance) ∧
      performance.remarks.map (fun remark ↦ (remark.finding, remark.indices)) = Lost.remarks ∧
      ∀ remark ∈ performance.remarks, Points .standard Lost.content remark.indices
        remark.finding := by
  have hrun : (perform .standard {} {} "" none Lost.content).map (fun x ↦ x.map fun performance ↦
      performance.remarks.map fun remark ↦ (remark.finding, remark.indices)) =
        some (.ok Lost.remarks) := by
    decide +kernel
  obtain ⟨fault | performance, hperformed, hremarks⟩ := Option.map_eq_some_iff.mp hrun
  · cases hremarks
  · replace hremarks := Except.ok.inj hremarks
    refine ⟨performance, hperformed, hremarks, ?_⟩
    intro remark hmem
    obtain ⟨-, hpoints⟩ :=
      perform_remarks_point Repertoire.onlyStandard_standard rfl hperformed remark hmem
    have hlocated : ∀ x ∈ Lost.remarks, x.2 ≠ [] := by decide
    have hlost : (remark.finding, remark.indices) ∈ Lost.remarks :=
      hremarks ▸ List.mem_map_of_mem hmem
    exact hpoints fun hnil ↦ hlocated _ hlost (congrArg (List.map Place.index) hnil)

end Rendition
