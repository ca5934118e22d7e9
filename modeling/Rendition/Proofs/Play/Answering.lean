import Rendition.Proofs.Play.Modest
import Rendition.Proofs.Script.Orderly

namespace Rendition.Scope

variable {stage : Stage} {player : Player} {scope scope' : Scope} {s s' : Session} {name : String}
  {access : Access} {values : List Value} {r : Except Fault (Option Passage)}

/-- What a standard function that was called under the settings `σ` leaves behind,
beside what it answers. -/
structure Answered (player : Player) (name : String) (values : List Value) (σ : Settings)
    (r : Except Fault (Option Passage)) (scope' : Scope) : Prop where
  /-- A player leaves the settings of its caller as they are. -/
  kept : name ∈ Script.players → scope'.settings = σ
  valid : σ.Valid → scope'.settings.Valid
  /-- A passage that is handed over is that of a phrase that a player was called with. -/
  played : ∀ passage, r = .ok (some passage) → ∃ phrase overrides s s',
    Script.Lends values σ name phrase overrides ∧
    outcome (player (σ.override overrides) phrase.written.2 phrase.written.1) s =
    some (.ok passage, s')

theorem answered_of_orderly {script : Script (Option Passage)} {σ : Settings}
    (h : script.Orderly name values σ) (hσ : scope.settings = σ)
    (hrun : (answer stage player name access script scope).run s = some ((r, scope'), s')) :
    Answered player name values σ r scope' := by
  induction h generalizing scope with
  | done | fail =>
    cases hrun
    exact ⟨fun _ ↦ hσ, fun hvalid ↦ hσ ▸ hvalid, nofun⟩
  | settings _ ih =>
    rw [answer_settings, hσ] at hrun
    exact ih hσ hrun
  | setSettings hname hkeeps _ ih =>
    have hanswered := ih rfl hrun
    -- What has set something is no player, and hands over no passage.
    refine ⟨fun h ↦ absurd h hname, fun hvalid ↦ hanswered.valid (hkeeps hvalid), ?_⟩
    intro passage he
    obtain ⟨_, _, _, _, hlends, -⟩ := hanswered.played passage he
    exact absurd hlends.mem_players hname
  | @play σ phrase overrides next hlends hnext =>
    rw [answer_play, playPhrase_full_run, Option.bind_eq_some_iff] at hrun
    obtain ⟨⟨p, s₁⟩, hplay, hrest⟩ := hrun
    dsimp only at hrest
    rw [hnext] at hrest
    rw [hσ] at hplay
    cases p with
    | error fault =>
      cases hrest
      exact ⟨fun _ ↦ hσ, fun hvalid ↦ hσ ▸ hvalid, nofun⟩
    | ok passage =>
      cases hrest
      refine ⟨fun _ ↦ hσ, fun hvalid ↦ hσ ▸ hvalid, ?_⟩
      rintro _ ⟨⟩
      exact ⟨phrase, overrides, s, _, hlends, hplay⟩

theorem answered_of_call (hr : stage.repertoire.OnlyStandard) {function : Function}
    (hf : stage.repertoire.functions.find? name = some function)
    (h : (answer stage player name function.access (function.body name values) scope).run s =
      some ((r, scope'), s')) :
    Answered player name values scope.settings r scope' := by
  obtain ⟨f, hmem, rfl, rfl⟩ := hr _ function hf
  exact answered_of_orderly (Script.orderly_standard f hmem values scope.settings) rfl h

end Rendition.Scope
