import Rendition.Proofs.Play.Alike
import Rendition.Proofs.Play.Entrances

namespace Rendition

namespace Session

/-- What may happen from one note to the next: ties come up and events are moved, but what
sounds stays as it is. -/
structure Waits (s t : Session) : Prop where
  pending : t.pending = s.pending
  tieLeft : s.tieLeft = true → t.tieLeft = true
  sounds : ∀ id, t.sound? id = s.sound? id

namespace Waits

variable {s t u : Session}

theorem refl (s : Session) : s.Waits s := ⟨rfl, id, fun _ ↦ rfl⟩

theorem trans (h : s.Waits t) (h' : t.Waits u) : s.Waits u :=
  ⟨h'.pending.trans h.pending, h'.tieLeft ∘ h.tieLeft, fun id ↦ (h'.sounds id).trans (h.sounds id)⟩

theorem of_eq (he : t.events = s.events) (hp : t.pending = s.pending) (ht : t.tieLeft = s.tieLeft) :
    s.Waits t :=
  ⟨hp, fun h ↦ ht.trans h, fun id ↦ by rw [sound?, sound?, he]⟩

theorem size_eq (h : s.Waits t) : t.events.size = s.events.size := size_eq_of_sound? h.sounds

end Waits

theorem added_waits : Added Waits where
  refl := .refl
  trans := .trans
  later s ids time beats :=
    ⟨s.later_pending ids time beats, fun h ↦ (s.later_tieLeft ids time beats).trans h,
    fun id ↦ s.sound?_later ids time beats id⟩

end Session

/-- Notes follow one another from a session on to the end, if it is known: each finds what the
one before has left. -/
def Follow (stage : Stage) : Session → List Entrance → Option Session → Prop
  | s, [], last => ∀ t ∈ last, s.Waits t
  | s, e :: rest, last =>
    s.Waits e.session ∧ Follow stage (e.scope.noted stage e.session e.note).2 rest last

namespace Follow

variable {stage : Stage} {s t : Session} {es es' : List Entrance} {last : Option Session}

theorem head (hw : s.Waits t) (h : Follow stage t es last) : Follow stage s es last := by
  cases es with
  | nil => exact fun u hu ↦ hw.trans (h u hu)
  | cons e rest => exact ⟨hw.trans h.1, h.2⟩

theorem append (h : Follow stage s es (some t)) (h' : Follow stage t es' last) :
    Follow stage s (es ++ es') last := by
  induction es generalizing s with
  | nil => exact h'.head (h t rfl)
  | cons e rest ih => exact ⟨h.1, ih h.2⟩

theorem tail {u : Session} (h : Follow stage s es (some t)) (hw : t.Waits u) :
    Follow stage s es (some u) := by
  have hnil : Follow stage t [] (some u) := by
    rintro _ ⟨⟩
    exact hw
  exact List.append_nil es ▸ h.append hnil

theorem map {α : Type} {x : Option α} {f g : α → Session} (h : Follow stage s es (x.map f))
    (hw : ∀ a, (f a).Waits (g a)) : Follow stage s es (x.map g) := by
  cases x with
  | none => exact h
  | some a => exact h.tail (hw a)

end Follow

section Run

variable {stage : Stage} {player : Player} {inner : Listing}

def Listing.Follows (stage : Stage) (player : Player) (inner : Listing) : Prop :=
  ∀ around settings remarks symbols s, Follow stage s (inner around settings remarks symbols s)
    ((outcome (player settings remarks symbols) s).map Prod.snd)

variable (hinner : inner.Follows stage player) (around : List Scope)
include hinner

theorem Interlude.follow (i : Interlude) :
    Follow stage i.session (i.notes inner around) ((i.run player).map Prod.snd) := by
  have hlend : i.session.Waits (i.access.lend i.session) :=
    .of_eq (i.access.lend_events _) (i.access.lend_pending _) (i.access.lend_tieLeft _)
  rw [run, Scope.playPhrase_run, Option.map_map]
  exact ((hinner _ _ _ _ _).head hlend).map fun x ↦ .of_eq rfl rfl rfl

theorem Scope.follow_script {name : String} {access : Access} (script : Script (Option Passage))
    (scope : Scope) (s : Session) :
    Follow stage s ((scope.interludesOf stage player name access script s).flatMap
      (·.notes inner around)) (((scope.answer stage player name access script).run s).map
        Prod.snd) := by
  induction script generalizing scope s with
  | done | fail =>
    rintro _ ⟨⟩
    exact .refl s
  | play phrase overrides access next ih =>
    have hfirst := Interlude.follow hinner around ⟨scope, s, phrase, overrides, access⟩
    have hplay : (scope.playPhrase player phrase overrides access).run s =
        Interlude.run player ⟨scope, s, phrase, overrides, access⟩ := rfl
    rw [interludesOf, List.flatMap_cons, answer_play, hplay]
    cases hrun : Interlude.run player ⟨scope, s, phrase, overrides, access⟩ with
    | none =>
      rw [hrun] at hfirst
      exact (List.append_nil _).symm ▸ hfirst
    | some x =>
      rw [hrun] at hfirst
      exact hfirst.append (ih x.1 scope x.2)
  | join passages next ih =>
    exact (ih _ scope _).head (Session.added_waits.join stage scope s passages)
  | remark message next ih => exact ih _ s
  | settings next ih => exact ih _ scope s
  | setSettings settings next ih => exact ih _ s
  | trace next ih => exact ih _ scope s
  | record entry next ih =>
    rw [answer_record]
    refine (ih _ scope _).head ?_
    split
    · exact .of_eq rfl rfl rfl
    · exact .refl s
  | progress next ih => exact ih _ scope s

theorem Scope.follow_symbol (symbol : Symbol) (scope : Scope) (s : Session) :
    Follow stage s (scope.symbolNotes stage player inner around s symbol)
      ((outcome (scope.playSymbol stage player symbol) s).map Prod.snd) := by
  have hwaits : ∀ {t : Session}, s.Waits t → Follow stage s [] (some t) := by
    rintro _ h _ ⟨⟩
    exact h
  cases symbol with
  | note note =>
    refine ⟨.refl s, ?_⟩
    rintro _ ⟨⟩
    exact .refl _
  | tie => exact hwaits ⟨rfl, fun _ ↦ rfl, fun _ ↦ rfl⟩
  | barLine | marking | clef | comment | space => exact hwaits (.refl s)
  | phrase times content =>
    rw [outcome_phrase, Option.map_map]
    exact (hinner _ _ _ _ _).map fun x ↦ Session.added_waits.take stage scope x.2 x.1
  | theme name =>
    rw [symbolNotes]
    cases hc : stage.repertoire.themes.find? name with
    | none =>
      rw [outcome_theme_none _ _ _ _ hc]
      exact hwaits (.refl s)
    | some content =>
      dsimp only
      split
      next ha =>
        rw [outcome_theme_active _ _ _ hc ha]
        exact hwaits (.refl s)
      next ha =>
        have hin : s.Waits (s.entering name) := .of_eq rfl rfl rfl
        have hout : ∀ t : Session, t.Waits t.leaving := fun t ↦ .of_eq rfl rfl rfl
        rw [outcome_theme _ _ _ hc ha, Option.map_map]
        exact ((hinner _ _ _ _ _).head hin).map fun x ↦
          (hout x.2).trans (Session.added_waits.take stage scope x.2.leaving x.1)
  | call name arguments =>
    rw [symbolNotes]
    cases hf : stage.repertoire.functions.find? name with
    | none =>
      rw [outcome_call_none _ _ _ _ _ hf, interludes, hf]
      exact hwaits (.refl s)
    | some function =>
      cases hv : arguments.mapM Value.ofArgument with
      | error e =>
        rw [outcome_call_error _ _ _ _ hf hv, interludes, hf, hv]
        exact hwaits (.refl s)
      | ok values =>
        rw [outcome_call _ _ _ _ hf hv, interludes_eq _ _ hf hv, Option.map_map]
        exact (follow_script hinner around _ scope s).map fun x ↦
          Session.added_waits.receive stage x.1.2 x.2 name x.1.1

theorem Scope.follow_symbols (index : Nat) (symbols : List Symbol) (scope : Scope) (s : Session) :
    Follow stage s (scope.notesFrom stage player inner around index symbols s)
      ((outcome (scope.playFrom stage player index symbols) s).map Prod.snd) := by
  induction symbols generalizing index scope s with
  | nil =>
    rintro _ ⟨⟩
    exact .refl s
  | cons symbol rest ih =>
    have hsymbol := follow_symbol hinner around symbol (scope.atIndex index) s
    rw [notesFrom, outcome_playFrom_cons]
    rcases houtcome : outcome ((scope.atIndex index).playSymbol stage player symbol)
      s with - | ⟨fault | scope', s'⟩
    all_goals rw [houtcome] at hsymbol
    · exact (List.append_nil _).symm ▸ hsymbol
    · exact (List.append_nil _).symm ▸ hsymbol
    · exact hsymbol.append (ih (index + 1) scope' s')

end Run

theorem follows_notesOf (stage : Stage) (depth : Nat) :
    (notesOf stage depth).Follows stage (playerOf stage depth) := by
  induction depth with
  | zero => exact fun _ _ _ _ _ ↦ nofun
  | succ depth ih =>
    intro around settings remarks symbols s
    rw [outcome_playerOf, Option.map_map]
    exact Scope.follow_symbols ih around 0 symbols _ s

theorem Moment.exists_follow (stage : Stage) (m : Moment) :
    ∃ last, Follow stage m.session (m.notes stage) last := by
  obtain ⟨depth, around, scope, s, ⟨index, symbols⟩ | ⟨name, access, script⟩⟩ := m
  · exact ⟨_, Scope.follow_symbols (follows_notesOf stage depth) around index symbols scope s⟩
  · exact ⟨_, Scope.follow_script (follows_notesOf stage depth) around script scope s⟩

end Rendition
