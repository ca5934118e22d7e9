import Rendition.Proofs.Play.Depth
import Rendition.Proofs.Play.Keeping

namespace Rendition

variable {stage : Stage} {player : Player}

def Player.RestoresActive (player : Player) : Prop :=
  ∀ settings remarks symbols s r s', outcome (player settings remarks symbols) s = some (r, s') →
    s'.active = s.active

theorem kept_active : Session.Kept stage fun s s' ↦ s'.active = s.active where
  refl _ := rfl
  trans h h' := h'.trans h
  note scope s note := scope.noted_active stage s note
  tie _ := rfl
  later s ids time beats := s.later_active ids time beats
  record _ _ := rfl
  reclaim access {s _} h := h.trans (access.lend_active s)
  leave name {s t} h := by
    rw [Session.leaving, h]
    exact List.dropLast_concat

theorem playerOf_restoresActive (stage : Stage) (depth : Nat) :
    (playerOf stage depth).RestoresActive :=
  kept_active.playerOf depth

section Ending

variable {stage : Stage} {depth : Nat} {scope : Scope} {s : Session}

/-- Symbols that do not lie deeper inside one another than `depth` have an outcome. -/
def EndsWithin (stage : Stage) (depth : Nat) : Prop :=
  ∀ settings remarks symbols (s : Session),
    Symbol.contentDepth symbols + stage.repertoire.themeDepth s.active < depth →
    ∃ x, outcome (playerOf stage depth settings remarks symbols) s = some x

theorem Scope.answer_ends {player : Player} {name : String} {access : Access}
    {phrases : List Phrase} {script : Script (Option Passage)} (hm : script.Modest phrases)
    (hplay : ∀ settings, ∀ phrase ∈ phrases,
      ∃ x, outcome (player settings phrase.written.2 phrase.written.1) s = some x) :
    ∃ x, (answer stage player name access script scope).run s = some x := by
  induction hm generalizing scope with
  | done => exact ⟨_, rfl⟩
  | fail => exact ⟨_, rfl⟩
  | settings _ ih => exact ih _
  | setSettings _ ih =>
    rw [answer_setSettings]
    exact ih
  | @play phrase overrides next hp hnext =>
    obtain ⟨⟨r, s₁⟩, hx⟩ := hplay (scope.settings.override overrides) phrase hp
    rw [answer_play, playPhrase_full_run, hx, Option.bind_some]
    dsimp only
    rw [hnext]
    cases r <;> exact ⟨_, rfl⟩

theorem Scope.playSymbol_ends (scope : Scope) (hr : stage.repertoire.OnlyStandard)
    (hends : EndsWithin stage depth) {symbol : Symbol}
    (hd : symbol.depth + stage.repertoire.themeDepth s.active ≤ depth) :
    ∃ x, outcome (scope.playSymbol stage (playerOf stage depth) symbol) s = some x := by
  cases symbol with
  | note note => exact ⟨_, rfl⟩
  | tie | barLine | clef | comment | space | marking => exact ⟨_, rfl⟩
  | phrase times content =>
    rw [Symbol.depth] at hd
    have := Repetition.contentDepth_unfold content times.toInt
    obtain ⟨x, hx⟩ := hends scope.settings (Repetition.unfold content times.toInt).2
      (Repetition.unfold content times.toInt).1 s (by omega)
    rw [outcome_phrase, playRepeated, hx]
    exact ⟨_, rfl⟩
  | theme name =>
    cases hc : stage.repertoire.themes.find? name with
    | none => exact ⟨_, outcome_theme_none _ _ _ _ hc⟩
    | some content =>
      by_cases ha : name ∈ s.active
      · exact ⟨_, outcome_theme_active _ _ _ hc ha⟩
      · have := stage.repertoire.themeDepth_append hc ha
        have := Repetition.contentDepth_unfold content (-1)
        obtain ⟨x, hx⟩ :=
          hends scope.settings (Repetition.unfold content (-1)).2 (Repetition.unfold content (-1)).1
            (s.entering name) (by simp only [Session.entering]; omega)
        rw [outcome_theme _ _ _ hc ha, playRepeated, hx]
        exact ⟨_, rfl⟩
  | call name arguments =>
    cases hf : stage.repertoire.functions.find? name with
    | none => exact ⟨_, outcome_call_none _ _ _ _ _ hf⟩
    | some function =>
      cases hv : arguments.mapM Value.ofArgument with
      | error e => exact ⟨_, outcome_call_error _ _ _ _ hf hv⟩
      | ok values =>
        obtain ⟨f, hmem, -, rfl⟩ := hr name function hf
        obtain ⟨x, hx⟩ :
            ∃ x, (answer stage (playerOf stage depth) name .full (f.2 name values) scope).run s =
            some x :=
          answer_ends (Script.modest_standard f hmem name values) fun settings phrase hp ↦
          hends _ _ _ _ <| by
            have := Value.contentDepth_lt hv hp name
            have := phrase.contentDepth_written
            omega
        rw [outcome_call _ _ _ _ hf hv, hx]
        exact ⟨_, rfl⟩

theorem Scope.playFrom_ends (scope : Scope) (hr : stage.repertoire.OnlyStandard)
    (hends : EndsWithin stage depth) {symbols : List Symbol}
    (hd : Symbol.contentDepth symbols + stage.repertoire.themeDepth s.active ≤ depth)
    (index : Nat) : ∃ x, outcome (scope.playFrom stage (playerOf stage depth) index symbols) s =
      some x := by
  induction symbols generalizing index scope s with
  | nil => exact ⟨_, rfl⟩
  | cons symbol rest ih =>
    rw [Symbol.contentDepth] at hd
    have hsymbol : symbol.depth + stage.repertoire.themeDepth s.active ≤ depth := by omega
    obtain ⟨⟨r, s₁⟩, hx⟩ := (scope.atIndex index).playSymbol_ends hr hends hsymbol
    rw [outcome_playFrom_cons, hx]
    cases r with
    | error fault => exact ⟨_, rfl⟩
    | ok scope₁ =>
      -- The themes being played are the same again, and with them the bound.
      have hactive := kept_active.step (playerOf_restoresActive stage depth) (step_of_outcome hx)
      exact ih scope₁ (by rw [hactive]; omega) (index + 1)

theorem endsWithin (hr : stage.repertoire.OnlyStandard) (depth : Nat) : EndsWithin stage depth := by
  induction depth with
  | zero => exact fun _ _ _ _ h ↦ absurd h (Nat.not_lt_zero _)
  | succ depth ih =>
    intro settings remarks symbols s hd
    obtain ⟨x, hx⟩ :=
      (Scope.begin stage s settings remarks).playFrom_ends hr ih (Nat.le_of_lt_succ hd) 0
    rw [outcome_playerOf, hx]
    exact ⟨_, rfl⟩

end Ending

theorem playTrack_ends {stage : Stage} (hr : stage.repertoire.OnlyStandard) (settings : Settings)
    (symbols : List Symbol) (s : Session) : ∃ x, outcome (playTrack stage settings symbols) s =
      some x := by
  have hdepth : Symbol.contentDepth symbols + stage.repertoire.themeDepth s.active ≤
      stage.repertoire.depthOf symbols := by
    have := stage.repertoire.themeDepth_le s.active
    rw [Repertoire.depthOf]
    omega
  obtain ⟨x, hx⟩ := (Scope.enter stage settings s false).playFrom_ends hr (endsWithin hr _) hdepth 0
  rw [outcome_playTrack, hx]
  exact ⟨_, rfl⟩

end Rendition
