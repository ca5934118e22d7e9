import Rendition.Play.Player
import Rendition.Proofs.Script.Validity

namespace Rendition

theorem forM_eq_of_mem {α : Type} {f : α → Except Fault Unit} {xs : List α} {x : α} (hx : x ∈ xs)
    (h : ∀ y ∈ xs, y ≠ x → f y = .ok ()) : xs.forM f = f x := by
  induction xs with
  | nil => cases hx
  | cons y rest ih =>
    rw [List.forall_mem_cons] at h
    rw [List.forM]
    by_cases hyx : y = x
    · subst hyx
      cases hy : f y with
      | error fault => rfl
      | ok =>
        refine forM_eq_ok.mpr fun z hz ↦ ?_
        by_cases hzy : z = y
        · rw [hzy, hy]
        · exact h.2 z hz hzy
    · rw [h.1 hyx]
      exact ih (List.mem_of_ne_of_mem (Ne.symm hyx) hx) h.2

namespace Settings

/-- The settings, if they pass their check, and the fault that it finds if they do not. -/
def checked (s : Settings) : Except Fault Settings := s.check.map fun _ ↦ s

/-- On these settings the change comes to this result. A function that asks its caller for the
change is answered accordingly, and leaves everything about the caller as it was but the settings of
a change that succeeds. -/
structure Yields (change : Settings → Except Fault Settings) (s : Settings)
    (r : Except Fault Settings) : Prop where
  eq : change s = r
  answer (stage : Stage) (player : Player) (name : String) (access : Access) (scope : Scope)
    (session : Session) :
    scope.settings = s →
    (scope.answer stage player name access (Script.adjust change)).run session =
      some ((r.map fun _ ↦ (), { scope with settings := r.toOption.getD s }), session)

variable {s : Settings} {change : Settings → Except Fault Settings} {r : Except Fault Settings}

theorem Yields.of_eq (h : change s = r) : Yields change s r := by
  refine ⟨h, fun stage player name access scope session hscope ↦ ?_⟩
  subst hscope
  change (scope.answer stage player name access ((Script.ofExcept (change scope.settings)).bind
    _)).run session = _
  rw [h]
  cases r <;> rfl

/-- A change that checks the value it takes agrees with the check of the settings that it leads to,
if this finds every fault of the value. It finds no other, as the change keeps settings valid. -/
theorem eq_checked {s' : Settings} {part : Except Fault Unit} (hkeeps : KeepsValid change)
    (hs : s.Valid) (hchange : change s = do part; return s')
    (hfault : ∀ fault, part = .error fault → s'.check = .error fault) :
    change s = s'.checked := by
  cases hpart : part with
  | ok =>
    have hok : change s = .ok s' := by
      rw [hchange, hpart]
      rfl
    rw [hok, checked, check_eq_ok.mpr (hkeeps s s' hs hok)]
    rfl
  | error fault =>
    rw [hchange, checked, hfault fault hpart, hpart]
    rfl

section Valid

variable (hs : s.Valid)

include hs

theorem withKey_eq_checked (key : List Int32) : s.withKey key = { s with key }.checked := by
  refine eq_checked (keepsValid_withKey key) hs rfl fun fault h ↦ ?_
  rw [check, h]
  rfl

theorem withVolume_eq_checked (volume : List Float) :
    s.withVolume volume = { s with volume }.checked := by
  refine eq_checked (keepsValid_withVolume volume) hs rfl fun fault h ↦ ?_
  rw [check, hs.key, h]
  rfl

theorem withStaccato_eq_checked (staccato : List Float) :
    s.withStaccato staccato = { s with staccato }.checked := by
  refine eq_checked (keepsValid_withStaccato staccato) hs rfl fun fault h ↦ ?_
  rw [check, hs.key, hs.volume, h]
  rfl

theorem forM_check_turn (dial : Dial) (value : Float) :
    (Dial.all.forM fun other ↦ other.check (other.read (dial.turn s value))) =
      dial.check value := by
  rw [forM_eq_of_mem dial.mem_all]
  · rw [dial.read_turn, if_pos rfl]
  · intro other _ hne
    rw [other.read_turn, if_neg hne]
    exact Dial.check_eq_ok.mpr (hs.dials other)

theorem withScalar_eq_checked (dial : Dial) (value : Float) :
    s.withScalar dial.name value = (dial.turn s value).checked := by
  have hname : dial.name ≠ "trace" := by cases dial <;> decide
  have hdial : Dial.ofName? dial.name = some dial := by cases dial <;> rfl
  have hchange : s.withScalar dial.name value = do dial.check value; return dial.turn s value := by
    rw [withScalar, if_neg hname, hdial]
  refine eq_checked (keepsValid_withScalar dial.name value) hs hchange fun fault h ↦ ?_
  rw [check, dial.turn_key, dial.turn_volume, dial.turn_staccato, hs.key, hs.volume, hs.staccato,
    forM_check_turn hs, h]
  rfl

end Valid

theorem withTrace_of_equals {value : Float} {n : Nat} (hn : 1 ≤ n) (h : Number.Equals value n) :
    s.withTrace value = .ok { s with trace := min n 0xffffffffffffffff } := by
  have hrefused : (decide (value < 1) || !Number.isWhole value) = false := by
    have hone : ¬value < 1 := h.lt_one_iff.not.mpr (by omega)
    rw [decide_eq_false hone, Number.isWhole_iff.mpr ⟨n, h⟩]
    rfl
  have hstored : (Number.clamp 0 traceLimit n).toNat = min n 0xffffffffffffffff := by
    unfold Number.clamp traceLimit
    omega
  rw [withTrace, hrefused, h.truncate_eq, hstored]
  rfl

theorem withTrace_of_not_equals {value : Float} (h : ∀ n : Nat, 1 ≤ n → ¬Number.Equals value n) :
    s.withTrace value = .error (.setting "trace" .traceNotWhole) := by
  unfold withTrace
  refine if_pos ?_
  rw [Bool.or_eq_true, decide_eq_true_iff, Bool.not_eq_true', or_iff_not_imp_right,
    Bool.not_eq_false]
  intro hwhole
  obtain ⟨n, hn⟩ := Number.isWhole_iff.mp hwhole
  refine hn.lt_one_iff.mpr ?_
  by_contra hge
  obtain ⟨k, rfl⟩ := Int.eq_ofNat_of_zero_le (show 0 ≤ n by omega)
  exact h k (by omega) hn

theorem ofName?_eq_none {name : String} (h : ∀ dial : Dial, name ≠ dial.name) :
    Dial.ofName? name = none :=
  List.find?_eq_none.mpr fun dial _ ↦ by simpa using (h dial).symm

/-- Each change to settings that pass their check has the outcome of checking the settings with the
one value replaced, whatever the value. A trace takes the whole numbers from one on. -/
theorem changes_agree_with_check (hs : s.check = .ok ()) :
    (∀ key, Yields (·.withKey key) s { s with key }.checked) ∧
    (∀ volume, Yields (·.withVolume volume) s { s with volume }.checked) ∧
    (∀ staccato, Yields (·.withStaccato staccato) s { s with staccato }.checked) ∧
    (∀ (dial : Dial) (value : Float), Yields (·.withScalar dial.name value) s
      (dial.turn s value).checked) ∧
    (∀ (value : Float) (n : Nat), 1 ≤ n → Number.Equals value n →
      { s with trace := min n 0xffffffffffffffff }.check = .ok () ∧
        Yields (·.withScalar "trace" value) s (.ok { s with trace := min n 0xffffffffffffffff })) ∧
    (∀ value : Float, (∀ n : Nat, 1 ≤ n → ¬Number.Equals value n) →
      Yields (·.withScalar "trace" value) s (.error (.setting "trace" .traceNotWhole))) ∧
    ∀ (name : String) (value : Float), name ≠ "trace" → (∀ dial : Dial, name ≠ dial.name) →
      Yields (·.withScalar name value) s (.error (.setting name .unknown)) := by
  have hvalid := check_eq_ok.mp hs
  refine ⟨fun key ↦ .of_eq (withKey_eq_checked hvalid key),
    fun volume ↦ .of_eq (withVolume_eq_checked hvalid volume),
    fun staccato ↦ .of_eq (withStaccato_eq_checked hvalid staccato),
    fun dial value ↦ .of_eq (withScalar_eq_checked hvalid dial value), fun value n hn h ↦
      ⟨?_, .of_eq ?_⟩,
    fun value h ↦ .of_eq ?_, fun name value htrace hdial ↦ .of_eq ?_⟩
  · exact check_eq_ok.mpr (keepsValid_withScalar "trace" value s _ hvalid
      (withTrace_of_equals hn h))
  · exact withTrace_of_equals hn h
  · exact withTrace_of_not_equals h
  · rw [withScalar, if_neg htrace, ofName?_eq_none hdial]

theorem changes_agree_with_check_borders :
    let s : Settings := { key := [5, -1200], volume := [0.5], trace := 3 }
    s.check = .ok () ∧
      Yields (·.withKey [1200, -1201]) s (.error (.setting "key" (.offsetOutOfRange (-1201)))) ∧
      Yields (·.withVolume [0, 1]) s (.ok { s with volume := [0, 1] }) ∧
      Yields (·.withStaccato []) s (.error (.setting "stac" .empty)) ∧
      Yields (·.withScalar "speed" (0 / 0)) s (.error (.setting "speed" (.outOfRange (0 / 0)))) ∧
      Yields (·.withScalar "fade-in" (1 / 0)) s (.ok { s with fadeIn := 1 / 0 }) ∧
      (1 ≤ 0x10000000000000000 ∧ Number.Equals 18446744073709551616 0x10000000000000000 ∧
        Yields (·.withScalar "trace" 18446744073709551616) s
          (.ok { s with trace := 0xffffffffffffffff })) ∧
      ((∀ n : Nat, 1 ≤ n → ¬Number.Equals 1.5 n) ∧
        Yields (·.withScalar "trace" 1.5) s (.error (.setting "trace" .traceNotWhole))) ∧
      "tempo" ≠ "trace" ∧ (∀ dial : Dial, "tempo" ≠ dial.name) ∧
        Yields (·.withScalar "tempo" 1) s (.error (.setting "tempo" .unknown)) := by
  intro s
  have hs : s.check = .ok () := by decide +kernel
  obtain ⟨hkey, hvolume, hstaccato, hdial, hwhole, hbroken, hunknown⟩ := changes_agree_with_check hs
  have hlarge : Number.Equals 18446744073709551616 (0x10000000000000000 : Nat) := by
    unfold Number.Equals
    decide +kernel
  have hbetween (n : Nat) (_ : 1 ≤ n) : ¬Number.Equals 1.5 n :=
    fun h ↦ absurd (Number.isWhole_iff.mpr ⟨n, h⟩) (by decide +kernel)
  have htempo (dial : Dial) : "tempo" ≠ dial.name := by cases dial <;> decide
  have hoffset : { s with key := [1200, -1201] }.checked =
      .error (.setting "key" (.offsetOutOfRange (-1201))) := by decide +kernel
  have hshares : { s with volume := [0, 1] }.checked = .ok { s with volume := [0, 1] } := by
    decide +kernel
  have hempty : { s with staccato := [] }.checked = .error (.setting "stac" .empty) := by
    decide +kernel
  have hnan : (Dial.speed.turn s (0 / 0)).checked =
      .error (.setting "speed" (.outOfRange (0 / 0))) := by
    decide +kernel
  have hinfinite : (Dial.fadeIn.turn s (1 / 0)).checked = .ok { s with fadeIn := 1 / 0 } := by
    decide +kernel
  exact ⟨hs, hoffset ▸ hkey _, hshares ▸ hvolume _, hempty ▸ hstaccato _, hnan ▸ hdial .speed _,
    hinfinite ▸ hdial .fadeIn _, ⟨by decide, hlarge, (hwhole _ _ (by decide) hlarge).2⟩,
    ⟨hbetween, hbroken _ hbetween⟩, by decide, htempo, hunknown _ _ (by decide) htempo⟩

end Settings

end Rendition
