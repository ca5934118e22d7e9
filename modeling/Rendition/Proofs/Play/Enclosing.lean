import Rendition.Proofs.Play.Closing
import Rendition.Proofs.Play.Visiting
import Rendition.Proofs.Score.Parts

namespace Rendition

def Interlude.closings (ledger : Ledger) (i : Interlude) : List Closing :=
  ledger (i.scope.settings.override i.overrides) i.phrase.written.2 i.phrase.written.1
    (i.access.lend i.session)

def Symbol.isSilent : Symbol → Bool
  | .note _ | .barLine _ => false
  | _ => true

section Encloses

variable (stage : Stage) (player : Player) (tour : Tour) (ledger : Ledger) (P : Symbol → Prop)
  (scope : Scope) (s : Session)

/-- All that a symbol which has been played can do for the visits and the closed bars of a passage.
A silent symbol adds an inner passage, written in symbols with the property `P`, or nothing. -/
inductive Scope.Encloses : Symbol → Scope → Prop
  | note (note : Note) : Encloses (.note note) (scope.noted stage s note).1
  | barLine (bar : BarLine) : Encloses (.barLine bar) (scope.playBarLine bar)
  | nothing {symbol : Symbol} {scope' : Scope} {after : List String} (hsilent : symbol.isSilent)
      (hprogress : scope'.progress = { scope.progress with after })
      (hvisits : scope.symbolVisits stage player tour s symbol = [])
      (hclosings : scope.symbolClosings stage player ledger s symbol = []) : Encloses symbol scope'
  | passage {symbol : Symbol} {outer : Scope} {settings : Settings} {remarks : List Remark}
      {content : List Symbol} {s₀ s₁ : Session} {passage : Passage} (hsilent : symbol.isSilent)
      (houter : outer.progress = scope.progress) (hcontent : Symbol.Throughout P content)
      (hplay : outcome (player settings remarks content) s₀ = some (.ok passage, s₁))
      (hvisits : scope.symbolVisits stage player tour s symbol =
        (tour settings remarks content s₀).map (·.inside outer))
      (hclosings : scope.symbolClosings stage player ledger s symbol =
        outer.adopt passage.progress (ledger settings remarks content s₀)) :
      Encloses symbol (outer.absorb stage passage)

end Encloses

namespace Scope

variable {stage : Stage} {player : Player} {tour : Tour} {ledger : Ledger} {P : Symbol → Prop}
  {scope scope' : Scope} {s s' : Session}

theorem answerClosings_of_modest (ledger : Ledger) (held : Holding) {name : String}
    {access : Access} {phrases : List Phrase} {script : Script (Option Passage)}
    (hm : script.Modest phrases) {passage : Passage}
    (h : (answer stage player name access script scope).run s =
      some ((.ok (some passage), scope'), s')) :
    answerClosings stage player ledger name access script held scope s =
      (scope.interludesOf stage player name access script s).flatMap (·.closings ledger) := by
  induction hm generalizing scope with
  | done | fail => cases h
  | settings _ ih => exact ih _ h
  | setSettings _ ih =>
    rw [answer_setSettings] at h
    exact ih h
  | @play phrase overrides next hp hnext =>
    rw [answer_play, Option.bind_eq_some_iff] at h
    obtain ⟨⟨u, s₁⟩, hplay, hrest⟩ := h
    have hrun : Interlude.run player ⟨scope, s, phrase, overrides, .full⟩ = some (u, s₁) := hplay
    dsimp only at hrest
    rw [hnext] at hrest
    cases u with
    | error fault => cases hrest
    | ok played =>
      cases hrest
      rw [answerClosings, hplay, interludesOf, hrun]
      dsimp only
      rw [hnext]
      change ((List.lookup passage ((passage, _) :: held)).getD [] : List Closing) = _ ++ []
      rw [List.lookup_cons_self, List.append_nil]
      rfl

section Repeated

variable {content : List Symbol} {times : Int} {t : Session} {r : Except Fault Passage}

theorem encloses_repeated {symbol : Symbol} {s₀ s₁ : Session} (hsilent : symbol.isSilent)
    (hcontent : Symbol.Throughout P (Repetition.unfold content times).1)
    (hplay : outcome (scope.playRepeated player content times) s₀ = some (r, s₁))
    (htake : .ok scope' = (scope.take stage t r).1)
    (hvisits : scope.symbolVisits stage player tour s symbol =
      scope.repeatedVisits tour content times s₀)
    (hclosings : scope.symbolClosings stage player ledger s symbol =
      scope.repeatedClosings player ledger content times s₀) :
    scope.Encloses stage player tour ledger P s symbol scope' := by
  cases r with
  | error fault => cases htake
  | ok passage =>
    cases htake
    rw [repeatedClosings, hplay] at hclosings
    exact .passage hsilent rfl hcontent hplay hvisits hclosings

end Repeated

theorem encloses_call (hr : stage.repertoire.OnlyStandard) (hend : player.EndsFatally)
    (hplain : P Repetition.plainBar) {name : String} {arguments : List Argument}
    {function : Function} {values : List Value}
    (hs : ∀ part ∈ (Symbol.call name arguments).parts, P part)
    (hf : stage.repertoire.functions.find? name = some function)
    (hv : arguments.mapM Value.ofArgument = .ok values) {r : Except Fault (Option Passage)}
    {scope₁ : Scope} {s₁ : Session}
    (hrun : (answer stage player name function.access (function.body name values) scope).run s =
      some ((r, scope₁), s₁)) (hreceive : .ok scope' = (scope₁.receive stage s₁ name r).1) :
    scope.Encloses stage player tour ledger P s (.call name arguments) scope' := by
  obtain ⟨f, hmem, -, hbody⟩ := hr name function hf
  have hm : (function.body name values).Modest (Script.phrasesOf values) :=
    hbody ▸ Script.modest_standard f hmem name values
  obtain ⟨⟨settings, hscope⟩, -⟩ := modestly_of_answer hm hrun
  have hprogress : scope₁.progress = scope.progress := by rw [hscope]
  have hvisits : scope.symbolVisits stage player tour s (.call name arguments) =
      (scope.interludesOf stage player name function.access (function.body name values) s).flatMap
      (·.visits tour) := by
    rw [symbolVisits, interludes_eq _ _ hf hv]
  have hclosings : scope.symbolClosings stage player ledger s (.call name arguments) =
      scope.callClosings stage player ledger name function values s := by
    simp only [symbolClosings, hf, hv]
  rw [callClosings, hrun] at hclosings
  obtain ⟨hnone, hr⟩ | ⟨phrase, hphrase, overrides, u, hi, hplay, rfl⟩ :=
    interludes_of_modest hm hrun
  · rw [hnone, List.flatMap_nil] at hvisits
    cases r with
    | ok handed =>
      cases handed with
      | none =>
        cases hreceive
        exact .nothing rfl hprogress hvisits hclosings
      | some passage => exact absurd rfl (hr passage)
    | error fault =>
      cases fault with
      | undefinedTheme => cases hreceive
      | setting | argument =>
        cases hreceive
        exact .nothing rfl hprogress hvisits hclosings
  · cases u with
    | ok passage =>
      cases hreceive
      have hsame := answerClosings_of_modest ledger [] hm hrun
      rw [hi, List.flatMap_singleton] at hsame hvisits
      refine .passage rfl hprogress ?_ hplay hvisits ?_
      · exact Phrase.throughout_written hplain (Value.throughout_call hv hs hphrase)
      · exact hclosings.trans (congrArg (scope₁.adopt passage.progress) hsame)
    | error fault =>
      -- The fault of a passage is fatal, and would have ended this one too.
      have hfatal := hend _ _ _ _ _ _ hplay
      rw [not_fatal_of_receive hreceive.symm] at hfatal
      cases hfatal

theorem encloses_of_outcome (hr : stage.repertoire.OnlyStandard) (hend : player.EndsFatally)
    (hplain : P Repetition.plainBar)
    (hthemes : ∀ name content, stage.repertoire.themes.find? name = some content →
      Symbol.Throughout P content)
    {symbol : Symbol} (hs : ∀ part ∈ symbol.parts, P part)
    (h : outcome (scope.playSymbol stage player symbol) s = some (.ok scope', s')) :
    scope.Encloses stage player tour ledger P s symbol scope' := by
  have hstep := step_of_outcome h
  generalize hres : Except.ok scope' = r at hstep
  cases hstep with
  | note note => cases hres; exact .note note
  | barLine bar => cases hres; exact .barLine bar
  | tie => cases hres; exact .nothing rfl rfl rfl rfl
  | marking kind => cases hres; exact .nothing rfl rfl rfl rfl
  | inert _ hinert =>
    cases hres
    cases symbol with
    | clef | comment | space => exact .nothing rfl rfl rfl rfl
    | note | call | phrase | theme | tie | barLine | marking => cases hinert
  | phrase times content r s₁ hplay =>
    exact encloses_repeated rfl ((Symbol.throughout_phrase hs).unfold hplain _) hplay hres
      rfl rfl
  | undefined => cases hres
  | active name content hc ha =>
    cases hres
    exact .nothing rfl rfl (by simp [symbolVisits, hc, ha]) (by simp [symbolClosings, hc, ha])
  | theme name content hc ha r s₁ hplay =>
    exact encloses_repeated rfl ((hthemes name content hc).unfold hplain _) hplay hres
      (by simp [symbolVisits, hc, ha]) (by simp [symbolClosings, hc, ha])
  | unknown name arguments hf =>
    cases hres
    exact .nothing rfl rfl (by simp [symbolVisits, interludes, hf])
      (by simp [symbolClosings, hf])
  | formula name arguments function source fault hf hv =>
    cases hres
    exact .nothing rfl rfl (by simp [symbolVisits, interludes, hf, hv])
      (by simp [symbolClosings, hf, hv])
  | call name arguments function values hf hv r scope₁ s₁ hrun =>
    exact encloses_call hr hend hplain hs hf hv hrun hres

end Scope

end Rendition
