import Rendition.Play.Performance

namespace Rendition

variable {α β : Type}

/-- The answer of a play that begins in a session, and the session it leaves. -/
def outcome (play : Play α) (s : Session) : Option (Except Fault α × Session) := play.run.run s

@[simp] theorem outcome_pure (a : α) (s : Session) : outcome (pure a) s = some (.ok a, s) := rfl

@[simp] theorem outcome_throw (fault : Fault) (s : Session) :
    outcome (throw fault : Play α) s = some (.error fault, s) := rfl

@[simp] theorem outcome_get (s : Session) : outcome get s = some (.ok s, s) := rfl

@[simp] theorem outcome_modify (f : Session → Session) (s : Session) :
    outcome (modify f) s = some (.ok ⟨⟩, f s) := rfl

@[simp] theorem outcome_modifyGet (f : Session → α × Session) (s : Session) :
    outcome (modifyGet f) s = some (.ok (f s).1, (f s).2) := rfl

/-- What comes after a play that has answered; a fault ends both. -/
def andThen (first : Option (Except Fault α × Session))
    (next : α → Session → Option (Except Fault β × Session)) :
    Option (Except Fault β × Session) :=
  first.bind fun r ↦ match r.1 with
    | .error fault => some (.error fault, r.2)
    | .ok a => next a r.2

theorem andThen_eq_some {first : Option (Except Fault α × Session)}
    {next : α → Session → Option (Except Fault β × Session)} {r : Except Fault β} {s : Session} :
    andThen first next = some (r, s) ↔
      (∃ fault, first = some (.error fault, s) ∧ r = .error fault) ∨
        ∃ a s₁, first = some (.ok a, s₁) ∧ next a s₁ = some (r, s) := by
  rcases first with - | ⟨fault | a, s₁⟩
  · simp [andThen]
  · simp only [andThen, Option.bind_some, Option.some.injEq, Prod.mk.injEq, Except.error.injEq,
      reduceCtorEq, false_and, exists_false, or_false]
    exact ⟨fun h ↦ ⟨fault, ⟨rfl, h.2⟩, h.1.symm⟩, fun ⟨_, ⟨hf, hs⟩, hr⟩ ↦ ⟨hf ▸ hr.symm, hs⟩⟩
  · simp only [andThen, Option.bind_some, Option.some.injEq, Prod.mk.injEq, Except.ok.injEq,
      reduceCtorEq, false_and, exists_false, false_or]
    exact ⟨fun h ↦ ⟨a, s₁, ⟨rfl, rfl⟩, h⟩, fun ⟨_, _, ⟨ha, hs⟩, h⟩ ↦ ha ▸ hs ▸ h⟩

theorem andThen_eq_ok {first : Option (Except Fault α × Session)}
    {next : α → Session → Option (Except Fault β × Session)} {b : β} {s : Session} :
    andThen first next = some (.ok b, s) ↔
      ∃ a s₁, first = some (.ok a, s₁) ∧ next a s₁ = some (.ok b, s) := by
  simp [andThen_eq_some]

theorem outcome_bind (play : Play α) (next : α → Play β) (s : Session) :
    outcome (play >>= next) s = andThen (outcome play s) fun a s' ↦ outcome (next a) s' := by
  change (ExceptT.run play s).bind _ = _
  unfold outcome
  rcases h : ExceptT.run play s with - | ⟨fault | a, s'⟩ <;> simp only [StateT.run, h] <;> rfl

theorem outcome_attempt (play : Play α) (s : Session) :
    outcome (attempt play) s = (outcome play s).map fun r ↦ (.ok r.1, r.2) := by
  change (ExceptT.run play s).bind _ = _
  unfold outcome
  rcases h : ExceptT.run play s with - | ⟨r, s'⟩ <;> simp only [StateT.run, h] <;> rfl

theorem outcome_lift (act : Act α) (s : Session) :
    outcome (liftM act : Play α) s = (act.run s).map fun r ↦ (.ok r.1, r.2) := by
  change (act s).bind _ = _
  rcases h : act s with - | ⟨a, s'⟩ <;> simp only [StateT.run, h] <;> rfl

def result? {σ : Type} (x : Option (Except Fault α × σ)) : Option α := x.bind fun r ↦ r.1.toOption

theorem exists_of_result? {σ : Type} {x : Option (Except Fault α × σ)} {f : α → β} {b : β}
    (h : (result? x).map f = some b) : ∃ a s, x = some (.ok a, s) ∧ f a = b := by
  match x, h with
  | some (.ok a, s), h => exact ⟨a, s, rfl, Option.some.inj h⟩

/-- Whether a fault inside a function ends the passage that calls it. -/
def Fault.isFatal : Fault → Bool
  | .undefinedTheme .. => true
  | .setting .. | .argument .. => false

/-- The symbols a phrase stands for when a function plays it, and the remarks on it. -/
def Phrase.written (phrase : Phrase) : List Symbol × List Remark :=
  if phrase.times = -1 then (phrase.content, [])
  else Repetition.unfold phrase.content phrase.times.toInt

namespace Access

def lend (access : Access) (s : Session) : Session :=
  if access.reads then s else { s with trace := [] }

def reclaim (access : Access) (before after : Session) : Session :=
  { after with
    trace := if !access.reads then before.trace
      else if access.writes then after.trace else after.trace.take before.trace.length }

@[simp] theorem lend_pending (access : Access) (s : Session) :
    (access.lend s).pending = s.pending := by
  cases access <;> rfl

@[simp] theorem lend_tieLeft (access : Access) (s : Session) :
    (access.lend s).tieLeft = s.tieLeft := by
  cases access <;> rfl

@[simp] theorem lend_active (access : Access) (s : Session) :
    (access.lend s).active = s.active := by
  cases access <;> rfl

@[simp] theorem lend_events (access : Access) (s : Session) :
    (access.lend s).events = s.events := by
  cases access <;> rfl

@[simp] theorem reclaim_pending (access : Access) (s t : Session) :
    (access.reclaim s t).pending = t.pending := rfl

@[simp] theorem reclaim_active (access : Access) (s t : Session) :
    (access.reclaim s t).active = t.active := rfl

@[simp] theorem reclaim_events (access : Access) (s t : Session) :
    (access.reclaim s t).events = t.events := rfl

end Access

namespace Session

def entering (s : Session) (name : String) : Session := { s with active := s.active ++ [name] }

def leaving (s : Session) : Session := { s with active := s.active.dropLast }

end Session

def Symbol.isInert : Symbol → Bool
  | .clef _ | .comment _ | .space => true
  | _ => false

def Symbol.isNote : Symbol → Bool
  | .note _ => true
  | _ => false

namespace Scope

variable (stage : Stage) (player : Player) (scope : Scope) (s : Session)

/-- The scope and the session once a note has been played. -/
def noted (note : Note) : Scope × Session :=
  let (outcome, session, progress) := note.play stage scope.settings s scope.progress
  ({ scope with
    progress := progress.lengthen outcome.beat
    events := scope.events ++ outcome.events
    remarks := scope.remarks ++ outcome.remarks }, session)

/-- Adds an inner passage that has been played, or ends with its fault. -/
def take : Except Fault Passage → Except Fault Scope × Session
  | .ok passage => (.ok (scope.add stage passage s).1, (scope.add stage passage s).2)
  | .error fault => (.error fault, s)

/-- Adds what the function `name` hands over, or remarks on its fault. Only an undefined
theme ends the passage. -/
def receive (name : String) : Except Fault (Option Passage) → Except Fault Scope × Session
  | .ok none => (.ok scope, s)
  | .ok (some passage) => (.ok (scope.add stage passage s).1, (scope.add stage passage s).2)
  | .error (.undefinedTheme theme bar index) => (.error (.undefinedTheme theme bar index), s)
  | .error fault => (.ok (scope.remark (.function name fault.message)), s)

section Answers

variable (name : String) (access : Access)

theorem answer_play (phrase : Phrase) (overrides : Overrides) (inner : Access)
    (next : Except Fault Passage → Script α) :
    (answer stage player name access (.play phrase overrides inner next) scope).run s =
      ((scope.playPhrase player phrase overrides inner).run s).bind fun r ↦
        (answer stage player name access (next r.1) scope).run r.2 := rfl

theorem answer_join (passages : List Passage) (next : Passage → Script α) :
    (answer stage player name access (.join passages next) scope).run s =
      (answer stage player name access (next (scope.join stage passages s).1) scope).run
        (scope.join stage passages s).2 := rfl

theorem answer_remark (message : String) (next : Script α) :
    (answer stage player name access (.remark message next) scope).run s =
      (answer stage player name access next (scope.remark (.function name message))).run s := rfl

theorem answer_settings (next : Settings → Script α) :
    (answer stage player name access (.settings next) scope).run s =
      (answer stage player name access (next scope.settings) scope).run s := rfl

theorem answer_setSettings (settings : Settings) (next : Script α) :
    (answer stage player name access (.setSettings settings next) scope).run s =
      (answer stage player name access next { scope with settings }).run s := rfl

theorem answer_record (entry : List Tone) (next : Bool → Script α) :
    (answer stage player name access (.record entry next) scope).run s =
      (answer stage player name access (next access.writes) scope).run
        (if access.writes then { s with trace := s.trace ++ [entry] } else s) := by
  cases access <;> rfl

end Answers

theorem playPhrase_run (phrase : Phrase) (overrides : Overrides) (access : Access) :
    (scope.playPhrase player phrase overrides access).run s =
      (outcome (player (scope.settings.override overrides) phrase.written.2 phrase.written.1)
        (access.lend s)).map
        fun r ↦ (r.1, access.reclaim s r.2) := by
  have h : (scope.playPhrase player phrase overrides access).run s =
      (outcome (player (scope.settings.override overrides) phrase.written.2 phrase.written.1)
        (access.lend s)).bind
        fun r ↦ some (r.1, access.reclaim s r.2) := by
    cases access <;> rfl
  rw [h, Option.map_eq_bind]
  rfl

theorem outcome_note (note : Note) :
    outcome (scope.playSymbol stage player (.note note)) s =
      some (.ok (scope.noted stage s note).1, (scope.noted stage s note).2) := rfl

theorem outcome_inert {symbol : Symbol} (h : symbol.isInert) :
    outcome (scope.playSymbol stage player symbol) s = some (.ok scope, s) := by
  cases symbol <;> first | rfl | simp [Symbol.isInert] at h

theorem outcome_phrase (times : Int32) (content : List Symbol) :
    outcome (scope.playSymbol stage player (.phrase times content)) s =
      (outcome (scope.playRepeated player content times.toInt) s).map fun r ↦
      scope.take stage r.2 r.1 := by
  change outcome (scope.playRepeated player content times.toInt >>= fun passage ↦
    scope.addPassage stage passage) s = _
  rw [outcome_bind]
  rcases outcome (scope.playRepeated player content times.toInt) s with - | ⟨fault | passage,
    s'⟩ <;> rfl

theorem outcome_theme_none {name : String} (h : stage.repertoire.themes.find? name = none) :
    outcome (scope.playSymbol stage player (.theme name)) s =
      some (.error (.undefinedTheme name scope.progress.barCount scope.progress.index), s) := by
  simp only [playSymbol, playTheme, h]
  rfl

theorem outcome_theme_active {name : String} {content : List Symbol}
    (h : stage.repertoire.themes.find? name = some content) {s : Session} (ha : name ∈ s.active) :
    outcome (scope.playSymbol stage player (.theme name)) s =
      some (.ok (scope.remark (.recursiveTrack name)), s) := by
  simp [playSymbol, playTheme, h, outcome_bind, andThen, ha]

theorem outcome_theme {name : String} {content : List Symbol}
    (h : stage.repertoire.themes.find? name = some content) {s : Session} (ha : name ∉ s.active) :
    outcome (scope.playSymbol stage player (.theme name)) s =
      (outcome (scope.playRepeated player content (-1)) (s.entering name)).map fun r ↦
        scope.take stage r.2.leaving r.1 := by
  simp only [playSymbol, playTheme, h, outcome_bind, outcome_get, andThen, Option.bind_some,
    ha, if_false, outcome_modify, outcome_attempt]
  change _ = Option.map _ (outcome _ { s with active := s.active ++ [name] })
  rcases outcome (scope.playRepeated player content (-1)) { s with
    active := s.active ++ [name] } with
    - | ⟨fault | passage, s'⟩ <;> rfl

theorem outcome_call_none {name : String} (arguments : List Argument)
    (h : stage.repertoire.functions.find? name = none) :
    outcome (scope.playSymbol stage player (.call name arguments)) s =
      some (.ok (scope.remark (.unknownFunction name)), s) := by
  simp only [playSymbol, call, h]
  rfl

theorem outcome_call_error {name : String} {arguments : List Argument} {function : Function}
    {source : String} {fault : Formula.Fault}
    (h : stage.repertoire.functions.find? name = some function)
    (ha : arguments.mapM Value.ofArgument = .error (source, fault)) :
    outcome (scope.playSymbol stage player (.call name arguments)) s =
      some (.ok (scope.remark (.badExpression source fault.message)), s) := by
  simp only [playSymbol, call, h, ha]
  rfl

theorem outcome_call {name : String} {arguments : List Argument} {function : Function}
    {values : List Value} (h : stage.repertoire.functions.find? name = some function)
    (ha : arguments.mapM Value.ofArgument = .ok values) :
    outcome (scope.playSymbol stage player (.call name arguments)) s =
      ((answer stage player name function.access (function.body name values) scope).run s).map
        fun r ↦ r.1.2.receive stage r.2 name r.1.1 := by
  simp only [playSymbol, call, h, ha, outcome_bind, outcome_lift]
  rcases (answer stage player name function.access (function.body name values) scope).run s with
    - | ⟨⟨fault | passage, scope'⟩, s'⟩
  · rfl
  · cases fault <;> rfl
  · cases passage <;> rfl

theorem outcome_playFrom_cons (index : Nat) (symbol : Symbol) (rest : List Symbol) :
    outcome (scope.playFrom stage player index (symbol :: rest)) s =
      andThen (outcome ((scope.atIndex index).playSymbol stage player symbol) s) fun scope' s' ↦
        outcome (scope'.playFrom stage player (index + 1) rest) s' := by
  rw [playFrom, outcome_bind]

def begin (settings : Settings) (remarks : List Remark) : Scope :=
  { enter stage settings s true with remarks }

end Scope

theorem outcome_playerOf (stage : Stage) (depth : Nat) (settings : Settings) (remarks : List Remark)
    (symbols : List Symbol) (s : Session) :
    outcome (playerOf stage (depth + 1) settings remarks symbols) s =
      (outcome ((Scope.begin stage s settings remarks).playFrom stage (playerOf stage depth) 0
        symbols) s).map
        fun r ↦ (r.1.map (·.conclude r.2), r.2) := by
  change outcome ((Scope.begin stage s settings remarks).playFrom stage (playerOf stage depth) 0
    symbols >>= fun scope ↦
    get >>= fun s' ↦ pure (scope.conclude s')) s = _
  rw [outcome_bind]
  rcases outcome ((Scope.begin stage s settings remarks).playFrom stage (playerOf stage depth) 0
    symbols) s with
    - | ⟨fault | scope, s'⟩ <;> rfl

theorem outcome_playTrack (stage : Stage) (settings : Settings) (symbols : List Symbol)
    (s : Session) :
    outcome (playTrack stage settings symbols) s =
      (outcome ((Scope.enter stage settings s false).playFrom stage
        (playerOf stage (stage.repertoire.depthOf symbols)) 0 symbols) s).map
          fun r ↦ (r.1.map fun scope ↦ (scope.settings, scope.conclude r.2), r.2) := by
  change outcome ((Scope.enter stage settings s false).playFrom stage
    (playerOf stage (stage.repertoire.depthOf symbols)) 0 symbols >>= fun scope ↦
      get >>= fun s' ↦ pure (scope.settings, scope.conclude s')) s = _
  rw [outcome_bind]
  rcases outcome ((Scope.enter stage settings s false).playFrom stage
    (playerOf stage (stage.repertoire.depthOf symbols)) 0 symbols) s
      with - | ⟨fault | scope, s'⟩ <;> rfl

end Rendition
