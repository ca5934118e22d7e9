import Mathlib.Data.List.Dedup
import Mathlib.Data.List.Perm.Subperm
import Mathlib.Data.List.ReduceOption
import Rendition.Proofs.Play.Ending
import Rendition.Proofs.Play.Nesting

namespace Rendition

/-- What the first player plays, the second plays as well, with the same outcome. -/
def Player.Below (p q : Player) : Prop :=
  ∀ settings remarks symbols s x, outcome (p settings remarks symbols) s = some x →
    outcome (q settings remarks symbols) s = some x

section Below

variable {stage : Stage} {p q : Player} (hpq : p.Below q) {scope : Scope} {s s' : Session}
include hpq

namespace Scope

theorem playPhrase_below {phrase : Phrase} {overrides : Overrides} {access : Access}
    {x : Except Fault Passage × Session}
    (h : (scope.playPhrase p phrase overrides access).run s = some x) :
    (scope.playPhrase q phrase overrides access).run s = some x := by
  rw [playPhrase_run] at h ⊢
  obtain ⟨y, hy, rfl⟩ := Option.map_eq_some_iff.mp h
  rw [hpq _ _ _ _ _ hy]
  rfl

theorem answer_below {α : Type} {name : String} {access : Access} {script : Script α}
    {x : (Except Fault α × Scope) × Session}
    (h : (answer stage p name access script scope).run s = some x) :
    (answer stage q name access script scope).run s = some x := by
  induction script generalizing scope s with
  | done | fail => exact h
  | play phrase overrides inner next ih =>
    rw [answer_play, Option.bind_eq_some_iff] at h
    obtain ⟨y, hy, hrest⟩ := h
    rw [answer_play, playPhrase_below hpq hy]
    exact ih _ hrest
  | join passages next ih => exact ih _ h
  | remark message next ih => exact ih h
  | settings next ih => exact ih _ h
  | setSettings settings next ih => exact ih h
  | trace next ih => exact ih _ h
  | record entry next ih =>
    rw [answer_record] at h ⊢
    exact ih _ h
  | progress next ih => exact ih _ h

theorem playSymbol_below {symbol : Symbol} {x : Except Fault Scope × Session}
    (h : outcome (scope.playSymbol stage p symbol) s = some x) :
    outcome (scope.playSymbol stage q symbol) s = some x := by
  obtain ⟨r, s'⟩ := x
  cases step_of_outcome h with
  | note | tie | barLine | marking => exact h
  | inert symbol hs =>
    rw [outcome_inert _ _ _ _ hs]
  | phrase times content r s₁ hplay =>
    have hplay' : outcome (scope.playRepeated q content times.toInt) s = some (r, s₁) :=
      hpq _ _ _ _ _ hplay
    rw [outcome_phrase, hplay']
    rfl
  | undefined name hc => rw [outcome_theme_none _ _ _ _ hc]
  | active name content hc ha => rw [outcome_theme_active _ _ _ hc ha]
  | theme name content hc ha r s₁ hplay =>
    have hplay' : outcome (scope.playRepeated q content (-1)) (s.entering name) = some (r, s₁) :=
      hpq _ _ _ _ _ hplay
    rw [outcome_theme _ _ _ hc ha, hplay']
    rfl
  | unknown name arguments hf => rw [outcome_call_none _ _ _ _ _ hf]
  | formula name arguments function source fault hf hv => rw [outcome_call_error _ _ _ _ hf hv]
  | call name arguments function values hf hv r scope₁ s₁ hrun =>
    rw [outcome_call _ _ _ _ hf hv, answer_below hpq hrun]
    rfl

theorem playFrom_below {index : Nat} {symbols : List Symbol} {x : Except Fault Scope × Session}
    (h : outcome (scope.playFrom stage p index symbols) s = some x) :
    outcome (scope.playFrom stage q index symbols) s = some x := by
  induction symbols generalizing index scope s with
  | nil => exact h
  | cons symbol rest ih =>
    obtain ⟨r, s'⟩ := x
    rw [outcome_playFrom_cons, andThen_eq_some] at h
    rw [outcome_playFrom_cons, andThen_eq_some]
    obtain ⟨fault, hsymbol, rfl⟩ | ⟨scope₁, s₁, hsymbol, hrest⟩ := h
    · exact .inl ⟨fault, playSymbol_below hpq hsymbol, rfl⟩
    · exact .inr ⟨scope₁, s₁, playSymbol_below hpq hsymbol, ih hrest⟩

end Scope

end Below

theorem playerOf_below (stage : Stage) {d e : Nat} (h : d ≤ e) :
    (playerOf stage d).Below (playerOf stage e) := by
  induction d generalizing e with
  | zero =>
    intro settings remarks symbols s x hx
    cases hx
  | succ d ih =>
    obtain ⟨e, rfl⟩ := Nat.exists_eq_succ_of_ne_zero (Nat.ne_zero_of_lt h)
    intro settings remarks symbols s x hx
    rw [outcome_playerOf] at hx ⊢
    obtain ⟨y, hy, rfl⟩ := Option.map_eq_some_iff.mp hx
    rw [Scope.playFrom_below (ih (Nat.le_of_succ_le_succ h)) hy]
    rfl

namespace Moment

variable {stage : Stage} {m m' m₀ : Moment} {themes : List (Option String)}

def theme? (m : Moment) : Option String :=
  match m.task with
  | .symbols _ (.theme name :: _) => some name
  | _ => none

/-- A way from one moment to another, with the passages that it has gone into on the way and not
left, outermost first: for each the theme that it plays, if it plays one. -/
inductive Descent (stage : Stage) (m₀ : Moment) : List (Option String) → Moment → Prop
  | start : Descent stage m₀ [] m₀
  | along {themes : List (Option String)} {m m' : Moment} (h : Descent stage m₀ themes m)
      (hn : Next stage m m') (ha : m'.around.length = m.around.length) : Descent stage m₀ themes m'
  | into {themes : List (Option String)} {m m' : Moment} (h : Descent stage m₀ themes m)
      (hn : Next stage m m') (ha : m'.around.length = m.around.length + 1) :
      Descent stage m₀ (themes ++ [m.theme?]) m'

theorem Next.around_length (h : Next stage m m') :
    m'.around.length = m.around.length ∨ m'.around.length = m.around.length + 1 := by
  cases h with
  | phrase | theme | play => exact .inr rfl
  | _ => exact .inl rfl

theorem Reached.descent (h : Reached stage m₀ m) : ∃ themes, Descent stage m₀ themes m := by
  induction h with
  | refl => exact ⟨[], .start⟩
  | tail _ hnext ih =>
    obtain ⟨themes, hdescent⟩ := ih
    obtain ha | ha := hnext.around_length
    · exact ⟨_, hdescent.along hnext ha⟩
    · exact ⟨_, hdescent.into hnext ha⟩

theorem Next.active_along (h : Next stage m m') (ha : m'.around.length = m.around.length) :
    m'.session.active = m.session.active := by
  have hkept : Session.Kept stage fun s s' ↦ s'.active = s.active := kept_active
  cases h with
  | past h => exact hkept.step (playerOf_restoresActive stage _) (Scope.step_of_outcome h)
  | phrase | theme | play => exact absurd ha (Nat.succ_ne_self _)
  | played next h =>
    exact Player.Keeps.playPhrase (playerOf_restoresActive stage _) hkept.reclaim h
  | joined passages next => exact hkept.join stage _ _ passages
  | record entry next =>
    dsimp only
    split <;> rfl
  | call | remarked | settings | set | trace | progress => rfl

theorem Next.active_into (h : Next stage m m') (ha : m'.around.length = m.around.length + 1) :
    m'.session.active = m.session.active ++ m.theme?.toList ∧
      ∀ name ∈ m.theme?, name ∉ m.session.active ∧ name ∈ stage.repertoire.themes.keys := by
  cases h with
  | phrase times content => exact ⟨(List.append_nil _).symm, nofun⟩
  | play phrase overrides inner next =>
    exact ⟨(inner.lend_active _).trans (List.append_nil _).symm, nofun⟩
  | theme name content hc hactive =>
    refine ⟨rfl, ?_⟩
    rintro _ ⟨⟩
    exact ⟨hactive, List.mem_map_of_mem (f := Prod.fst) (Table.mem_of_find? hc)⟩
  | _ => exact absurd ha (Nat.ne_of_lt (Nat.lt_succ_self _))

/-- The themes being played are those gone into, each once and by its name in the repertoire. -/
theorem Descent.active (h : Descent stage m₀ themes m) (hn : m₀.session.active.Nodup) :
    m.session.active = m₀.session.active ++ themes.reduceOption ∧ m.session.active.Nodup ∧
      themes.reduceOption ⊆ stage.repertoire.themes.keys := by
  induction h with
  | start => exact ⟨(List.append_nil _).symm, hn, List.nil_subset _⟩
  | along _ hnext ha ih => exact hnext.active_along ha ▸ ih
  | @into themes m m' _ hnext ha ih =>
    obtain ⟨hactive, hnodup, hkeys⟩ := ih
    obtain ⟨hnew, hname⟩ := hnext.active_into ha
    rw [hnew, List.reduceOption, List.filterMap_append]
    -- Phrases, and passages that functions play, are gone into without a name.
    cases htheme : m.theme? with
    | none => simpa [List.reduceOption] using ⟨hactive, hnodup, hkeys⟩
    | some name =>
      obtain ⟨hfresh, hdefined⟩ := hname name htheme
      refine ⟨?_, ?_, ?_⟩
      · rw [hactive, List.append_assoc]
        rfl
      · refine List.nodup_append.mpr ⟨hnodup, List.nodup_singleton name, ?_⟩
        rintro a ha b hb rfl
        exact hfresh (List.mem_singleton.mp hb ▸ ha)
      · exact List.append_subset.mpr ⟨hkeys, by simpa [List.reduceOption] using hdefined⟩

theorem Descent.length_le (h : Descent stage m₀ themes m) (hn : m₀.session.active.Nodup) :
    themes.reduceOption.length ≤ stage.repertoire.themes.keys.dedup.length := by
  obtain ⟨hactive, hnodup, hkeys⟩ := h.active hn
  have hopen : themes.reduceOption.Nodup := (List.nodup_append.mp (hactive ▸ hnodup)).2.1
  exact (List.subperm_of_subset hopen fun name hmem ↦ List.mem_dedup.mpr (hkeys hmem)).length_le

end Moment

section Perform

variable {r : Repertoire} {settings : Settings} {instrument : Instrument} {name : Option String}
  {content : List Symbol}

/-- However themes refer to one another, a track ends, and what it answers does not depend on how
deep passages may lie from some depth on. At no moment is a theme being played twice. Those being
played are the ones that passages around play, and no more than there are in the repertoire. Symbols
leave them as they found them, also where a fault ends them. -/
theorem perform_ends_on_cycles (hr : r.OnlyStandard) (id : String) :
    (∃ x, perform r settings instrument id name content = some x) ∧
    (∃ x, ∀ depth, Symbol.contentDepth (instrument.opening ++ content) +
      totalDepth r.themes.entries ≤ depth →
      outcome ((Scope.enter (r.stage instrument) settings (.opening name) false).playFrom
        (r.stage instrument) (playerOf (r.stage instrument) depth) 0
        (instrument.opening ++ content)) (.opening name) = some x) ∧
    (∀ m₀ m, Moment.Reached (r.stage instrument) m₀ m → m₀.session.active.Nodup →
      m.session.active.Nodup ∧ ∃ themes, Moment.Descent (r.stage instrument) m₀ themes m ∧
        m.session.active = m₀.session.active ++ themes.reduceOption ∧
        themes.reduceOption.length ≤ r.themes.keys.dedup.length) ∧
    ∀ depth index symbols (scope : Scope) s x s',
      outcome (scope.playFrom (r.stage instrument) (playerOf (r.stage instrument) depth) index
        symbols) s = some (x, s') → s'.active = s.active := by
  have hstandard : (r.stage instrument).repertoire.OnlyStandard := hr
  refine ⟨?_, ?_, fun m₀ m hreached hn ↦ ?_, fun depth index symbols scope s x s' h ↦ ?_⟩
  · obtain ⟨x, hx⟩ :=
      playTrack_ends hstandard settings (instrument.opening ++ content) (.opening name)
    rw [perform_eq, hx]
    exact ⟨_, rfl⟩
  · have hbound := (r.stage instrument).repertoire.themeDepth_le (Session.opening name).active
    obtain ⟨x, hx⟩ :=
      (Scope.enter (r.stage instrument) settings (.opening name) false).playFrom_ends hstandard
        (endsWithin hstandard _)
          (Nat.add_le_add_left hbound (Symbol.contentDepth (instrument.opening ++ content))) 0
    exact ⟨x, fun depth hdepth ↦ Scope.playFrom_below (playerOf_below _ hdepth) hx⟩
  · obtain ⟨themes, hdescent⟩ := hreached.descent
    obtain ⟨hactive, hnodup, -⟩ := hdescent.active hn
    exact ⟨hnodup, themes, hdescent, hactive, hdescent.length_le hn⟩
  · exact kept_active.playFrom (playerOf_restoresActive _ depth) h

end Perform

namespace Circling

def library : Repertoire :=
  { Repertoire.standard with themes := .ofList [("A", [.theme "B"]),
    ("B", [.theme "A", .theme "B"])] }

end Circling

theorem perform_ends_on_cycles_circling : ∃ performance,
    perform Circling.library {} {} "" none [.theme "A"] = some (.ok performance) ∧
    performance.remarks.map Remark.finding = [.recursiveTrack "A", .recursiveTrack "B"] ∧
    ∀ m, Moment.Reached (Circling.library.stage {})
      (Circling.library.opening {} {} none [.theme "A"]) m →
      m.session.active.length ≤ 2 := by
  have hstandard : Circling.library.OnlyStandard := Repertoire.onlyStandard_standard
  obtain ⟨performance, hp, hremarks⟩ :=
    exists_performance (f := fun p ↦ p.remarks.map Remark.finding) (b := [.recursiveTrack "A",
      .recursiveTrack "B"]) (x := perform Circling.library {} {} "" none [.theme "A"])
    (by decide +kernel)
  obtain ⟨-, -, hreached, -⟩ :=
    @perform_ends_on_cycles Circling.library {} {} none [.theme "A"] hstandard ""
  refine ⟨performance, hp, hremarks, fun m hm ↦ ?_⟩
  obtain ⟨-, themes, -, hactive, hlength⟩ := hreached _ m hm List.nodup_nil
  rw [hactive]
  exact hlength

end Rendition
