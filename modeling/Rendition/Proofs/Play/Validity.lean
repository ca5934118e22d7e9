import Rendition.Proofs.Play.Inheritance

namespace Rendition

namespace Settings

variable {s : Settings}

theorem Valid.override_key (hs : s.Valid) {key : List Int32} (hk : checkKey key = .ok ()) :
    (s.override { key := some key }).Valid :=
  ⟨hk, hs.volume, hs.staccato, hs.dials_eq fun dial ↦ by cases dial <;> rfl, hs.trace⟩

theorem Valid.override_duration (hs : s.Valid) {share : Float} (h : isShare share) :
    (s.override { duration := some (s.duration + share) }).Valid := by
  obtain ⟨hzero, hone⟩ : 0 ≤ share ∧ share ≤ 1 := by simpa [isShare] using h
  have hduration : s.duration.isFinite := hs.dials .duration
  exact @Valid.turn s hs .duration _ (Number.isFinite_add_of_mem_unit hduration hzero hone)

end Settings

/-- The part of the logarithm of a count that a tuplet scales its lengths by. -/
def tupletShare (count : Float) : Float := count.log2 - count.log2.floor

theorem Script.Lends.valid {values : List Value} {s : Settings} {name : String} {phrase : Phrase}
    {overrides : Overrides} (h : Lends values s name phrase overrides) (hs : s.Valid) :
    (s.override overrides).Valid ∨ ∃ count, count.isFinite ∧ 0 < count ∧
      overrides = { duration := some (s.duration + tupletShare count) } ∧
      Settings.isShare (tupletShare count) = false := by
  cases h with
  | transpose _ _ hk => exact .inl (hs.override_key hk)
  | @tuplet count _ hc hpos =>
    cases hshare : Settings.isShare (tupletShare count) with
    | true => exact .inl (hs.override_duration hshare)
    | false => exact .inr ⟨count, hc.2, hpos, rfl, hshare⟩

variable {stage : Stage} {player : Player} {scope scope' : Scope} {s s' : Session} {symbol : Symbol}
  {σ : Settings}

namespace Scope

theorem valid_of_symbol (hr : stage.repertoire.OnlyStandard) (hvalid : scope.settings.Valid)
    (h : outcome (scope.playSymbol stage player symbol) s = some (.ok scope', s')) :
    scope'.settings.Valid := by
  cases symbol with
  | call name arguments =>
    have hstep := step_of_outcome h
    generalize hres : Except.ok scope' = r at hstep
    cases hstep with
    | inert _ hs => cases hs
    | unknown | formula =>
      obtain rfl := Except.ok.inj hres
      exact hvalid
    | call _ _ function values hf hv r scope₁ s₁ hrun =>
      rw [receive_settings hres.symm]
      exact (answered_of_call hr hf hrun).valid hvalid
  | _ =>
    rw [(keeps_playSymbol hr h).2 fun name arguments hmem ↦ nomatch List.mem_singleton.mp hmem]
    exact hvalid

theorem valid_of_playFrom (hr : stage.repertoire.OnlyStandard) (hvalid : scope.settings.Valid)
    {index : Nat} {symbols : List Symbol}
    (h : outcome (scope.playFrom stage player index symbols) s = some (.ok scope', s')) :
    scope'.settings.Valid := by
  induction symbols generalizing index scope s with
  | nil =>
    cases h
    exact hvalid
  | cons symbol rest ih =>
    rw [outcome_playFrom_cons, andThen_eq_ok] at h
    obtain ⟨scope₁, s₁, hsymbol, hrest⟩ := h
    have hstart : (scope.atIndex index).settings.Valid := hvalid
    exact ih (valid_of_symbol hr hstart hsymbol) hrest

end Scope

namespace Moment

variable {m₀ m m' : Moment}

/-- A tuplet's passage begins, and the logarithm of its count, a positive finite float, does
not lie in the unit above its own floor. Any logarithm should, but floats leave theirs
without a definition. -/
def Strays (m : Moment) : Prop :=
  ∃ caller around symbols count, m.around = caller :: around ∧ m.task = .symbols 0 symbols ∧
    m.scope.settings = caller.settings.override
      { duration := some (caller.settings.duration + tupletShare count) } ∧
    count.isFinite ∧ 0 < count ∧ Settings.isShare (tupletShare count) = false

/-- What holds on the way: valid settings, also where a function is being answered. -/
def Sound (m : Moment) : Prop :=
  m.scope.settings.Valid ∧ match m.task with
    | .symbols .. => True
    | .script name _ script => ∃ values, script.Underway name values m.scope.settings

theorem sound_begin (hvalid : m.scope.settings.Valid) {index : Nat} {symbols : List Symbol}
    (ht : m.task = .symbols index symbols) : m.Sound := by
  refine ⟨hvalid, ?_⟩
  rw [ht]
  trivial

theorem Sound.next (hr : stage.repertoire.OnlyStandard) (hm : m.Sound) (hn : Next stage m m') :
    m'.Sound ∨ m'.Strays := by
  obtain ⟨hvalid, hscript⟩ := hm
  cases htask : m.task with
  | symbols =>
    cases hn with
    | @past _ _ scope _ _ _ index _ _ h =>
      have hstart : (scope.atIndex index).settings.Valid := hvalid
      exact .inl ⟨Scope.valid_of_symbol hr hstart h, trivial⟩
    | phrase | theme => exact .inl ⟨hvalid, trivial⟩
    | call name arguments function values hf hv =>
      obtain ⟨f, hmem, rfl, rfl⟩ := hr _ function hf
      exact .inl ⟨hvalid, values, .inl (Script.orderly_standard f hmem values _)⟩
    | _ => cases htask
  | script name access script =>
    rw [htask] at hscript
    obtain ⟨values, hunderway⟩ := hscript
    obtain ⟨_, overrides, hlends, haround, hinner, hbegin⟩ | ⟨_, hrest, hunderway', -, hkeeps⟩ :=
      hn.underway htask hunderway
    · obtain hvalid' | ⟨count, hfinite, hpos, rfl, hshare⟩ := hlends.valid hvalid
      · exact .inl (sound_begin (hinner ▸ hvalid') hbegin)
      · exact .inr ⟨_, _, _, count, haround, hbegin, hinner, hfinite, hpos, hshare⟩
    · refine .inl ⟨hkeeps hvalid, ?_⟩
      rw [hrest]
      exact ⟨values, hunderway'⟩

theorem Sound.reached (hr : stage.repertoire.OnlyStandard) (hm : m₀.Sound)
    (h : Reached stage m₀ m) :
    m.Sound ∨ ∃ m₁, Reached stage m₀ m₁ ∧ Reached stage m₁ m ∧ m₁.Strays := by
  induction h with
  | refl => exact .inl hm
  | @tail m m' hreached hnext ih =>
    obtain hsound | ⟨m₁, hbefore, hafter, hstrays⟩ := ih
    · obtain hsound | hstrays := hsound.next hr hnext
      · exact .inl hsound
      · exact .inr ⟨m', hreached.tail hnext, .refl, hstrays⟩
    · exact .inr ⟨m₁, hbefore, hafter.tail hnext, hstrays⟩

/-- Wherever the run that goes on from here comes, settings pass their check, but for the passages
of tuplets that stray. -/
def StaysValid (stage : Stage) (m₀ : Moment) : Prop :=
  ∀ m, Reached stage m₀ m →
    m.scope.settings.check = .ok () ∨ ∃ m₁, Reached stage m₀ m₁ ∧ Reached stage m₁ m ∧ m₁.Strays

theorem staysValid_of_symbols (hr : stage.repertoire.OnlyStandard)
    (hs : m₀.scope.settings.check = .ok ()) {index : Nat} {symbols : List Symbol}
    (ht : m₀.task = .symbols index symbols) : m₀.StaysValid stage := by
  intro m h
  have hsound : m₀.Sound := sound_begin (Settings.check_eq_ok.mp hs) ht
  exact (hsound.reached hr h).imp_left fun hm ↦ Settings.check_eq_ok.mpr hm.1

end Moment

end Rendition
