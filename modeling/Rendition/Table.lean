namespace Rendition

/-- A finite map that lists its keys in the order in which they first came. -/
structure Table (κ α : Type) where
  entries : List (κ × α) := []
  deriving DecidableEq, Repr

namespace Table

variable {κ α : Type} [DecidableEq κ]

instance : EmptyCollection (Table κ α) := ⟨⟨[]⟩⟩

instance : Inhabited (Table κ α) := ⟨∅⟩

def keys (t : Table κ α) : List κ := t.entries.map Prod.fst

def size (t : Table κ α) : Nat := t.entries.length

def lookup (k : κ) : List (κ × α) → Option α
  | [] => none
  | (k', v) :: rest => if k = k' then some v else lookup k rest

def find? (t : Table κ α) (k : κ) : Option α := lookup k t.entries

def contains (t : Table κ α) (k : κ) : Bool := (t.find? k).isSome

def put (k : κ) (v : α) : List (κ × α) → List (κ × α)
  | [] => [(k, v)]
  | (k', v') :: rest => if k = k' then (k, v) :: rest else (k', v') :: put k v rest

/-- A key that is there keeps its place. -/
def insert (t : Table κ α) (k : κ) (v : α) : Table κ α := ⟨put k v t.entries⟩

/-- The last of several values for a key counts. -/
def ofList (entries : List (κ × α)) : Table κ α := entries.foldl (fun t e ↦ t.insert e.1 e.2) ∅

theorem lookup_put (k k' : κ) (v : α) (entries : List (κ × α)) :
    lookup k' (put k v entries) = if k' = k then some v else lookup k' entries := by
  induction entries with
  | nil => rfl
  | cons e rest ih =>
    by_cases h : k = e.1
    · by_cases h' : k' = e.1 <;> simp_all [put, lookup]
    · by_cases h' : k' = e.1
      · have hk : e.1 ≠ k := Ne.symm h
        simp [put, lookup, h, h', hk]
      · simp [put, lookup, h, h', ih]

@[simp] theorem find?_insert (t : Table κ α) (k k' : κ) (v : α) :
    (t.insert k v).find? k' = if k' = k then some v else t.find? k' :=
  lookup_put k k' v t.entries

@[simp] theorem find?_empty (k : κ) : (∅ : Table κ α).find? k = none := rfl

theorem keys_put (k : κ) (v : α) (entries : List (κ × α)) :
    (put k v entries).map Prod.fst =
      if k ∈ entries.map Prod.fst then entries.map Prod.fst else entries.map Prod.fst ++ [k] := by
  induction entries with
  | nil => simp [put]
  | cons e rest ih =>
    by_cases h : k = e.1
    · simp [put, h]
    · by_cases h' : k ∈ rest.map Prod.fst <;> simp_all [put]

@[simp] theorem keys_insert (t : Table κ α) (k : κ) (v : α) :
    (t.insert k v).keys = if k ∈ t.keys then t.keys else t.keys ++ [k] :=
  keys_put k v t.entries

end Table

end Rendition
