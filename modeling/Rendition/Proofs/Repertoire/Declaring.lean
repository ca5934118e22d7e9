import Mathlib.Data.List.Induction
import Rendition.Proofs.Script.Standard

namespace Rendition

/-- What can make kinds of annotations known to a repertoire. -/
inductive Registration where
  | extend (extension : Extension)
  | declare (kind : String) (rule : AnnotationRule)
  | addPlugin (name : String) (plugin : Plugin)

def Plugin.LeavesMarks (plugin : Plugin) : Prop :=
  ∀ passage marks, plugin.collect passage marks = marks

namespace Registration

def rules : Registration → List (String × AnnotationRule)
  | .extend extension => extension.annotations
  | .declare kind rule => [(kind, rule)]
  | .addPlugin _ plugin => plugin.annotations

/-- No plugin comes in that takes part when marks are added up. -/
def LeavesMarks : Registration → Prop
  | .addPlugin _ plugin => plugin.LeavesMarks
  | .extend _ | .declare .. => True

end Registration

def Plugins.LeaveMarks (plugins : Plugins) : Prop := ∀ entry ∈ plugins.entries, entry.2.LeavesMarks

namespace Plugins.LeaveMarks

variable {plugins : Plugins}

theorem insert (h : plugins.LeaveMarks) (name : String) {plugin : Plugin}
    (hp : plugin.LeavesMarks) :
    Plugins.LeaveMarks (plugins.insert name plugin) := by
  obtain ⟨entries⟩ := plugins
  change ∀ entry ∈ Table.put name plugin entries, entry.2.LeavesMarks
  induction entries with
  | nil => exact List.forall_mem_singleton.mpr hp
  | cons first rest ih =>
    obtain ⟨hfirst, hrest⟩ := List.forall_mem_cons.mp h
    rw [Table.put]
    split
    · exact List.forall_mem_cons.mpr ⟨hp, hrest⟩
    · exact List.forall_mem_cons.mpr ⟨hfirst, ih hrest⟩

theorem collect (h : plugins.LeaveMarks) (passage : Passage) (marks : Marks) :
    plugins.collect passage marks = marks := by
  obtain ⟨entries⟩ := plugins
  change entries.foldl (fun m p ↦ p.2.collect passage m) marks = marks
  induction entries with
  | nil => rfl
  | cons first rest ih =>
    obtain ⟨hfirst, hrest⟩ := List.forall_mem_cons.mp h
    rw [List.foldl_cons, hfirst, ih hrest]

end Plugins.LeaveMarks

namespace Repertoire

def register (r : Repertoire) : Registration → Repertoire
  | .extend extension => r.extend extension
  | .declare kind rule => r.declare kind rule
  | .addPlugin name plugin => r.addPlugin name plugin

def registerAll (r : Repertoire) (registrations : List Registration) : Repertoire :=
  registrations.foldl register r

/-- The rules have been declared one after another. The last for a kind counts, and groups stand in
the order in which rules first named them. -/
structure Declares (r : Repertoire) (rules : List (String × AnnotationRule)) : Prop where
  groups : r.groups = (rules.map (·.2.group)).eraseDups
  rules : ∀ kind, r.annotations.find? kind = (rules.reverse.find? (·.1 = kind)).map Prod.snd

namespace Declares

variable {r : Repertoire} {rules : List (String × AnnotationRule)}

theorem declare (h : r.Declares rules) (kind : String) (rule : AnnotationRule) :
    (r.declare kind rule).Declares (rules ++ [(kind, rule)]) where
  groups := by
    have hold : rule.group ∈ r.groups ↔ rule.group ∈ rules.map (·.2.group) := by
      rw [h.groups, List.mem_eraseDups]
    rw [List.map_append, List.eraseDups_append, ← h.groups]
    by_cases hmem : rule.group ∈ rules.map (·.2.group)
    · simp [Repertoire.declare, hold.mpr hmem, List.removeAll, hmem]
    · simp [Repertoire.declare, mt hold.mp hmem, List.removeAll, hmem, List.eraseDups_cons]
  rules k := by
    rw [Repertoire.declare, Table.find?_insert, h.rules, List.reverse_append]
    by_cases hk : k = kind
    · simp [hk]
    · simp [hk, Ne.symm hk]

theorem declareAll (h : r.Declares rules) (more : List (String × AnnotationRule)) :
    (r.declareAll more).Declares (rules ++ more) := by
  induction more generalizing r rules with
  | nil =>
    rw [List.append_nil]
    exact h
  | cons rule rest ih =>
    rw [List.append_cons]
    exact ih (h.declare rule.1 rule.2)

theorem setChords (h : r.Declares rules) (chords : List (Char × Chord)) :
    (chords.foldl (fun r chord ↦ r.setChord chord.1 chord.2) r).Declares rules := by
  induction chords generalizing r with
  | nil => exact h
  | cons chord rest ih => exact ih ⟨h.groups, h.rules⟩

theorem register (h : r.Declares rules) (registration : Registration) :
    (r.register registration).Declares (rules ++ registration.rules) := by
  cases registration with
  | extend extension => exact (h.setChords extension.chords).declareAll extension.annotations
  | declare kind rule => exact h.declare kind rule
  | addPlugin name plugin =>
    have hrules := h.declareAll plugin.annotations
    exact ⟨hrules.groups, hrules.rules⟩

theorem registerAll (h : r.Declares rules) (registrations : List Registration) :
    (r.registerAll registrations).Declares (rules ++ registrations.flatMap Registration.rules) := by
  induction registrations generalizing r rules with
  | nil =>
    rw [List.flatMap_nil, List.append_nil]
    exact h
  | cons registration rest ih =>
    rw [List.flatMap_cons, ← List.append_assoc]
    exact ih (h.register registration)

theorem nodup (h : r.Declares rules) : r.groups.Nodup := by
  rw [h.groups]
  generalize rules.map (·.2.group) = groups
  induction groups using List.reverseRecOn with
  | nil => simp
  | append_singleton groups group ih =>
    rw [List.eraseDups_append]
    by_cases hmem : group ∈ groups
    · simpa [List.removeAll, hmem] using ih
    · have hne : ∀ other ∈ groups, other ≠ group := fun other hother he ↦ hmem (he ▸ hother)
      simpa [List.removeAll, hmem, List.nodup_append, List.eraseDups_cons] using ⟨ih, hne⟩

theorem mem_groups (h : r.Declares rules) {kind : String} {rule : AnnotationRule}
    (hrule : r.annotations.find? kind = some rule) : rule.group ∈ r.groups := by
  rw [h.rules] at hrule
  obtain ⟨declared, hfound, rfl⟩ := Option.map_eq_some_iff.mp hrule
  rw [h.groups, List.mem_eraseDups]
  exact List.mem_map_of_mem (List.mem_reverse.mp (List.mem_of_find?_eq_some hfound))

end Declares

theorem declareAll_kept (r : Repertoire) (rules : List (String × AnnotationRule)) :
    (r.declareAll rules).functions = r.functions ∧ (r.declareAll rules).plugins = r.plugins := by
  induction rules generalizing r with
  | nil => exact ⟨rfl, rfl⟩
  | cons rule rest ih => exact ih (r.declare rule.1 rule.2)

theorem extend_kept (r : Repertoire) (extension : Extension) :
    (r.extend extension).functions = r.functions ∧ (r.extend extension).plugins = r.plugins := by
  have hchords : ∀ (chords : List (Char × Chord)) (r : Repertoire),
      (chords.foldl (fun r chord ↦ r.setChord chord.1 chord.2) r).functions = r.functions ∧
        (chords.foldl (fun r chord ↦ r.setChord chord.1 chord.2) r).plugins = r.plugins := by
    intro chords
    induction chords with
    | nil => exact fun _ ↦ ⟨rfl, rfl⟩
    | cons chord rest ih => exact fun r ↦ ih (r.setChord chord.1 chord.2)
  obtain ⟨hfunctions, hplugins⟩ := hchords extension.chords r
  obtain ⟨hfunctions', hplugins'⟩ := declareAll_kept
    (extension.chords.foldl (fun r chord ↦ r.setChord chord.1 chord.2) r) extension.annotations
  exact ⟨hfunctions'.trans hfunctions, hplugins'.trans hplugins⟩

theorem registerAll_functions (r : Repertoire) (registrations : List Registration) :
    (r.registerAll registrations).functions = r.functions := by
  induction registrations generalizing r with
  | nil => rfl
  | cons registration rest ih =>
    refine (ih (r.register registration)).trans ?_
    cases registration with
    | extend extension => exact (r.extend_kept extension).1
    | declare kind rule => rfl
    | addPlugin name plugin => exact (r.declareAll_kept plugin.annotations).1

theorem leaveMarks_register {r : Repertoire} (hr : Plugins.LeaveMarks r.plugins)
    {registration : Registration} (h : registration.LeavesMarks) :
    Plugins.LeaveMarks (r.register registration).plugins := by
  cases registration with
  | extend extension =>
    rw [register, (r.extend_kept extension).2]
    exact hr
  | declare kind rule => exact hr
  | addPlugin name plugin =>
    rw [register, addPlugin, (r.declareAll_kept plugin.annotations).2]
    exact Plugins.LeaveMarks.insert hr name h

theorem leaveMarks_registerAll {r : Repertoire} (hr : Plugins.LeaveMarks r.plugins)
    {registrations : List Registration}
    (h : ∀ registration ∈ registrations, registration.LeavesMarks) :
    Plugins.LeaveMarks (r.registerAll registrations).plugins := by
  induction registrations generalizing r with
  | nil => exact hr
  | cons registration rest ih =>
    obtain ⟨hfirst, hrest⟩ := List.forall_mem_cons.mp h
    exact ih (leaveMarks_register hr hfirst) hrest

/-- Annotations find their rules' groups among those of the repertoire, and nothing but symbols and
inner passages adds marks. -/
structure KeepsMarks (r : Repertoire) : Prop where
  standard : r.OnlyStandard
  nodup : r.groups.Nodup
  mem_groups : ∀ kind rule, r.annotations.find? kind = some rule → rule.group ∈ r.groups
  collect : ∀ passage marks, r.plugins.collect passage marks = marks

theorem Declares.keepsMarks {r : Repertoire} {rules : List (String × AnnotationRule)}
    (h : r.Declares rules) (hr : r.OnlyStandard) (hp : Plugins.LeaveMarks r.plugins) :
    r.KeepsMarks where
  standard := hr
  nodup := h.nodup
  mem_groups _ _ hrule := h.mem_groups hrule
  collect := hp.collect

end Repertoire

end Rendition
