import Rendition.Proofs.Play.Carrying
import Rendition.Proofs.Play.Losing

namespace Rendition

section Perform

variable {r : Repertoire} {settings : Settings} {instrument : Instrument} {id : String}
  {name : Option String} {content : List Symbol} {performance : Performance}

theorem Moment.Enters.follows {stage : Stage} {symbols : List Symbol} {s s' : Session} {m : Moment}
    {e : Entrance} {scope : Scope} (he : m.Enters e)
    (hm : Reached stage (.start stage settings symbols s) m)
    (hs : s.Faithful stage.repertoire.plugins)
    (hrun : outcome ((Scope.enter stage settings s false).playFrom stage
      (playerOf stage (stage.repertoire.depthOf symbols)) 0 symbols) s = some (.ok scope, s')) :
    e.session.Faithful stage.repertoire.plugins ∧ (e.after stage).Lasts s' := by
  have hmem : e ∈ (Moment.start stage settings symbols s).notes stage := he.mem_notes hm
  have hfollow : Follow stage s ((Moment.start stage settings symbols s).notes stage)
      (some s') := by
    have h := Scope.follow_symbols (follows_notesOf stage (stage.repertoire.depthOf symbols)) [] 0
      symbols (Scope.enter stage settings s false) s
    rwa [hrun] at h
  obtain ⟨-, hfaithful⟩ := hfollow.keeps
    (R := fun s t ↦ s.Faithful stage.repertoire.plugins → t.Faithful stage.repertoire.plugins)
    (fun h h' hs ↦ h' (h hs)) (fun hw hs ↦ hs.waits hw) (fun _ hs ↦ Entrance.faithful_after hs)
  obtain ⟨-, hlasts⟩ := hfollow.keeps (R := Session.Lasts) .trans Session.Waits.lasts
    fun _ ↦ Entrance.lasts_after
  exact ⟨(hfaithful e hmem).1 hs, (hlasts e hmem).2⟩

end Perform

namespace Discarding

def note : Note := { pitches := [{ degree := .scale 1 }] }

/-- The body of a function that plays a note and does not hand it over. -/
def body : Script (Option Passage) := .play { content := [.note note] } {} .full fun _ ↦ .done none

def library : Repertoire where
  functions := .ofList [("Drop", { body := fun _ _ ↦ body })]

def lead : List Symbol := [.call "Drop" [], .tie]

def sound : Sound := ⟨some 0, 1, false⟩

structure Found where
  tieLeft : Bool
  before : Array Event
  after : Array Event
  timing : Timing
  sounds : List Sound
  deriving DecidableEq

end Discarding

end Rendition
