import Rendition.Proofs.Script.Standard

namespace Rendition

namespace Script

def hold (held : List Passage) : Except Fault Passage → List Passage
  | .ok passage => passage :: held
  | .error _ => held

/-- A script that joins and hands over only what it holds: passages that it has played or joined
itself. It may use each of them again and again, and hand over none. -/
inductive Honest : List Passage → Script (Option Passage) → Prop
  | none {held : List Passage} : Honest held (.done none)
  | some {held : List Passage} {passage : Passage} (h : passage ∈ held) :
      Honest held (.done (some passage))
  | fail {held : List Passage} (fault : Fault) : Honest held (.fail fault)
  | play {held : List Passage} {phrase : Phrase} {overrides : Overrides} {access : Access}
      {next : Except Fault Passage → Script (Option Passage)}
      (h : ∀ r, Honest (hold held r) (next r)) :
      Honest held (.play phrase overrides access next)
  | join {held passages : List Passage} {next : Passage → Script (Option Passage)}
      (hp : passages ⊆ held) (h : ∀ passage, Honest (passage :: held) (next passage)) :
      Honest held (.join passages next)
  | remark {held : List Passage} {message : String} {next : Script (Option Passage)}
      (h : Honest held next) :
      Honest held (.remark message next)
  | settings {held : List Passage} {next : Settings → Script (Option Passage)} (h : ∀ s,
      Honest held (next s)) :
      Honest held (.settings next)
  | setSettings {held : List Passage} {s : Settings} {next : Script (Option Passage)}
      (h : Honest held next) :
      Honest held (.setSettings s next)
  | trace {held : List Passage} {next : Option Trace → Script (Option Passage)} (h : ∀ t,
      Honest held (next t)) :
      Honest held (.trace next)
  | record {held : List Passage} {entry : List Tone} {next : Bool → Script (Option Passage)}
      (h : ∀ b, Honest held (next b)) : Honest held (.record entry next)
  | progress {held : List Passage} {next : Progress → Script (Option Passage)} (h : ∀ p,
      Honest held (next p)) :
      Honest held (.progress next)

theorem Modest.honest {phrases : List Phrase} {script : Script (Option Passage)}
    (h : script.Modest phrases) :
    script.Honest [] := by
  induction h with
  | done => exact .none
  | fail => exact .fail _
  | settings _ ih => exact .settings ih
  | setSettings _ ih => exact .setSettings ih
  | play hp hnext =>
    refine .play ?_
    intro r
    rw [hnext]
    cases r with
    | ok passage => exact .some List.mem_cons_self
    | error fault => exact .fail fault

end Script

namespace Repertoire

/-- The functions that scores find hand over only what they have played. -/
def Honest (r : Repertoire) : Prop :=
  ∀ name function, r.functions.find? name = some function →
    ∀ called values, (function.body called values).Honest []

theorem OnlyStandard.honest {r : Repertoire} (hr : r.OnlyStandard) : r.Honest := by
  intro name function h called values
  obtain ⟨f, hmem, -, rfl⟩ := hr name function h
  exact (Script.modest_standard f hmem called values).honest

end Repertoire

end Rendition
