import Rendition.Proofs.Play.Interlude
import Rendition.Proofs.Play.Step
import Rendition.Proofs.Script.Standard

namespace Rendition

variable {stage : Stage} {player : Player} {name : String} {access : Access} {phrases : List Phrase}
  {script : Script (Option Passage)} {scope scope' : Scope} {s s' : Session}
  {r : Except Fault (Option Passage)}

namespace Access

@[simp] theorem lend_full (s : Session) : full.lend s = s := rfl

@[simp] theorem reclaim_full (s t : Session) : full.reclaim s t = t := rfl

end Access

namespace Scope

theorem playPhrase_full_run (phrase : Phrase) (overrides : Overrides) :
    (scope.playPhrase player phrase overrides .full).run s =
      outcome (player (scope.settings.override overrides) phrase.written.2 phrase.written.1) s := by
  rw [playPhrase_run]
  simp

/-- All that a modest script can do: it changes the caller's settings, and plays a phrase at
most. -/
inductive Modestly (player : Player) (phrases : List Phrase) (scope : Scope) (s : Session) :
    Except Fault (Option Passage) → Session → Prop
  | done : Modestly player phrases scope s (.ok none) s
  | fail {fault : Fault} (h : fault.isFatal = false) :
      Modestly player phrases scope s (.error fault) s
  | play {phrase : Phrase} {overrides : Overrides} {r : Except Fault Passage} {s' : Session}
      (hp : phrase ∈ phrases) (h : outcome (player (scope.settings.override overrides)
        phrase.written.2 phrase.written.1) s = some (r, s')) :
      Modestly player phrases scope s (r.map some) s'

theorem modestly_of_answer (hm : script.Modest phrases)
    (h : (answer stage player name access script scope).run s = some ((r, scope'), s')) :
    (∃ settings, scope' = { scope with settings }) ∧ scope'.Modestly player phrases s r s' := by
  induction hm generalizing scope with
  | done =>
    cases h
    exact ⟨⟨_, rfl⟩, .done⟩
  | fail hf =>
    cases h
    exact ⟨⟨_, rfl⟩, .fail hf⟩
  | settings _ ih => exact ih _ h
  | setSettings _ ih =>
    rw [answer_setSettings] at h
    obtain ⟨⟨settings, rfl⟩, hmodestly⟩ := ih h
    exact ⟨⟨settings, rfl⟩, hmodestly⟩
  | @play phrase overrides next hp hnext =>
    rw [answer_play, playPhrase_full_run, Option.bind_eq_some_iff] at h
    obtain ⟨⟨p, s₁⟩, hplay, hrest⟩ := h
    dsimp only at hrest
    rw [hnext] at hrest
    have hr : r = p.map some ∧ scope' = scope ∧ s' = s₁ := by
      cases p <;> cases hrest <;> exact ⟨rfl, rfl, rfl⟩
    obtain ⟨rfl, rfl, rfl⟩ := hr
    exact ⟨⟨_, rfl⟩, .play hp hplay⟩

theorem interludes_of_modest (hm : script.Modest phrases)
    (h : (answer stage player name access script scope).run s = some ((r, scope'), s')) :
    (scope.interludesOf stage player name access script s = [] ∧
      ∀ passage, r ≠ .ok (some passage)) ∨
      ∃ phrase ∈ phrases, ∃ overrides u,
        scope.interludesOf stage player name access script s =
          [⟨scope', s, phrase, overrides, .full⟩] ∧
        outcome (player (scope'.settings.override overrides) phrase.written.2 phrase.written.1) s =
          some (u, s') ∧
        r = u.map some := by
  induction hm generalizing scope with
  | done | fail =>
    cases h
    exact .inl ⟨rfl, nofun⟩
  | settings _ ih => exact ih _ h
  | setSettings _ ih =>
    rw [answer_setSettings] at h
    exact ih h
  | @play phrase overrides next hp hnext =>
    rw [answer_play, Option.bind_eq_some_iff] at h
    obtain ⟨⟨u, s₁⟩, hplay, hrest⟩ := h
    have hrun : Interlude.run player ⟨scope, s, phrase, overrides, .full⟩ = some (u, s₁) := hplay
    obtain ⟨rfl, rfl, rfl⟩ : r = u.map some ∧ scope' = scope ∧ s' = s₁ := by
      dsimp only at hrest
      rw [hnext] at hrest
      cases u <;> cases hrest <;> exact ⟨rfl, rfl, rfl⟩
    refine .inr ⟨phrase, hp, overrides, u, ?_,
      (playPhrase_full_run phrase overrides).symm.trans hplay, rfl⟩
    rw [interludesOf, hrun]
    dsimp only
    rw [hnext]
    cases u <;> rfl

theorem Modestly.session_eq (h : scope.Modestly player phrases s r s') (hend : player.EndsFatally)
    (hn : ∀ passage, r ≠ .ok (some passage))
    (hown : ∀ fault, r = .error fault → fault.isFatal = false) : s' = s := by
  cases h with
  | done | fail => rfl
  | @play phrase overrides r s' hp h =>
    cases r with
    | ok passage => exact absurd rfl (hn passage)
    | error fault => exact absurd (hend _ _ _ _ _ _ h) (by simp [hown fault rfl])

theorem not_fatal_of_receive {fault : Fault}
    (h : (scope.receive stage s name (.error fault)).1 = .ok scope') :
    fault.isFatal = false := by
  cases fault with
  | undefinedTheme => cases h
  | setting | argument => rfl

theorem receive_snd_of_ne (hn : ∀ passage, r ≠ .ok (some passage)) :
    (scope.receive stage s name r).2 = s := by
  match r, hn with
  | .ok none, _ | .error (.undefinedTheme ..), _ | .error (.setting ..), _
  | .error (.argument ..), _ => rfl
  | .ok (some passage), hn => exact absurd rfl (hn passage)

theorem modestly_of_call (hr : stage.repertoire.OnlyStandard) {function : Function}
    {values : List Value} (hf : stage.repertoire.functions.find? name = some function)
    (h : (answer stage player name function.access (function.body name values) scope).run s =
      some ((r, scope'), s')) :
    (∃ settings, scope' = { scope with settings }) ∧
    scope'.Modestly player (Script.phrasesOf values) s r s' := by
  obtain ⟨f, hmem, -, rfl⟩ := hr name function hf
  exact modestly_of_answer (Script.modest_standard f hmem name values) h

end Scope

end Rendition
