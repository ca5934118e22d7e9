import Mathlib.Data.Option.Basic
import Rendition.Format.Layer

namespace Rendition

namespace Datum

variable {α : Type}

/-- What a value is written as reads as this value if the value is decoded, and all that
is read is decoded. -/
structure Faithful (decoded : α → Prop) (write : α → Datum) (read : Datum → Option α) : Prop where
  read_write {value : α} (h : decoded value) : read (write value) = some value
  decoded_of_read {d : Datum} {value : α} (h : read d = some value) : decoded value

section Fields

variable (fields : List (String × Datum)) (n name : String) (d : Datum) (read : Datum → Option α)
  (absent : α)

@[simp] theorem required_cons :
    required ((n, d) :: fields) name read = if n = name then read d
    else required fields name read := by
  unfold required
  rw [find]
  split
  · rfl
  · cases find name fields <;> rfl

@[simp] theorem orElse_nil : orElse [] name read absent = some absent := rfl

@[simp] theorem orElse_cons :
    orElse ((n, d) :: fields) name read absent = if n = name then read d
    else orElse fields name read absent := by
  unfold orElse
  rw [find]
  by_cases h : n = name
  · rw [if_pos h, if_pos h]
  · rw [if_neg h, if_neg h]
    cases find name fields <;> rfl

@[simp] theorem optional_nil : optional [] name read = some none := rfl

@[simp] theorem optional_cons :
    optional ((n, d) :: fields) name read = if n = name then nullable read d
    else optional fields name read :=
  orElse_cons ..

end Fields

section Scalars

variable (layer : Layer) (s : String)

@[simp] theorem text?_text : text? (text s) = some s := rfl

@[simp] theorem word?_text : word? (text s) = some s := rfl

@[simp] theorem bool?_bool (b : Bool) : bool? (bool b) = some b := rfl

@[simp] theorem real?_real (x : Float) : real? (real x) = some x := rfl

@[simp] theorem record?_record (fields : List (String × Datum)) :
    record? (record fields) = some fields := rfl

@[simp] theorem text?_layer : layer.text? (text s) = some s := by
  cases layer <;> rfl

theorem integer?_integer {low high n : Int} (h : low ≤ n ∧ n ≤ high) :
    integer? low high (integer n) = some n :=
  if_pos h

@[simp] theorem int32?_ofInt32 (n : Int32) : int32? (ofInt32 n) = some n := by
  have hn : -0x80000000 ≤ n.toInt ∧ n.toInt ≤ 0x7fffffff := ⟨n.minValue_le_toInt, n.toInt_le⟩
  rw [int32?, ofInt32, integer?_integer hn, Option.map_some, Int32.ofInt_toInt]

@[simp] theorem uint8?_ofNat (n : UInt8) : uint8? (ofNat n.toNat) = some n := by
  have hn := n.toNat_lt
  rw [uint8?, ofNat, integer?_integer (by omega), Option.map_some, Int.toNat_natCast,
    UInt8.ofNat_toNat]

@[simp] theorem uint32?_ofNat (n : UInt32) : uint32? (ofNat n.toNat) = some n := by
  have hn := n.toNat_lt
  rw [uint32?, ofNat, integer?_integer (by omega), Option.map_some, Int.toNat_natCast,
    UInt32.ofNat_toNat]

@[simp] theorem uint64?_ofNat (n : UInt64) : uint64? (ofNat n.toNat) = some n := by
  have hn := n.toNat_lt
  rw [uint64?, ofNat, integer?_integer (by omega), Option.map_some, Int.toNat_natCast,
    UInt64.ofNat_toNat]

end Scalars

section Collections

variable {decoded : α → Prop} {write : α → Datum} {read : Datum → Option α}

theorem list?_ofList {values : List α} (h : ∀ value ∈ values, read (write value) = some value) :
    list? read (ofList write values) = some values := by
  simp only [list?, ofList, List.mapM_map]
  induction values with
  | nil => rfl
  | cons value rest ih =>
    rw [List.forall_mem_cons] at h
    simp [h.1, ih h.2]

theorem exists_of_list? {d : Datum} {values : List α} (h : list? read d = some values) :
    ∀ value ∈ values, ∃ item, read item = some value := by
  unfold list? at h
  split at h
  · rename_i items
    induction items generalizing values with
    | nil =>
      cases h
      exact nofun
    | cons item rest ih =>
      rw [List.mapM_cons] at h
      obtain ⟨first, hfirst, h⟩ := Option.bind_eq_some_iff.mp h
      obtain ⟨others, hothers, h⟩ := Option.bind_eq_some_iff.mp h
      cases h
      exact List.forall_mem_cons.mpr ⟨⟨item, hfirst⟩, ih hothers⟩
  · cases h

theorem Faithful.list (hf : Faithful decoded write read) :
    Faithful (fun values ↦ ∀ value ∈ values, decoded value) (ofList write) (list? read) where
  read_write h := list?_ofList fun value hv ↦ hf.read_write (h value hv)
  decoded_of_read h value hv := by
    obtain ⟨item, hitem⟩ := exists_of_list? h value hv
    exact hf.decoded_of_read hitem

theorem Faithful.decoded_of_orElse (hf : Faithful decoded write read)
    {fields : List (String × Datum)} {name : String} {absent value : α}
    (h : orElse fields name read absent = some value) (habsent : decoded absent) :
    decoded value := by
  unfold orElse at h
  split at h
  · exact hf.decoded_of_read h
  · cases h
    exact habsent

theorem nullable_ofOption (hnull : ∀ value, write value ≠ null)
    (h : ∀ value, read (write value) = some value) (value : Option α) :
    nullable read (ofOption write value) = some value := by
  cases value with
  | none => rfl
  | some value =>
    have : nullable read (write value) = (read (write value)).map some := by
      unfold nullable
      split
      · exact absurd ‹_› (hnull value)
      · rfl
    rw [ofOption, this, h, Option.map_some]

end Collections

end Datum

end Rendition
