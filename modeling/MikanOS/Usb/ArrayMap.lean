import Mathlib

/-! # `ArrayMap`

A map in an array of fixed length (`arraymap.hpp`). `Put` takes the first free entry, whether or not the key
is there already, and does nothing when no entry is free. `Delete` frees the first entry of the key. -/

namespace MikanOS.Usb

/-- `ArrayMap`: the entries of `table_`. -/
structure ArrayMap (K V : Type) where
  table : List (Option K × V)

namespace ArrayMap

variable {K V : Type} [DecidableEq K]

/-- A new map of `N` entries. -/
def new (K V : Type) [Inhabited V] (N : Nat) : ArrayMap K V := ⟨List.replicate N (none, default)⟩

def get (m : ArrayMap K V) (key : K) : Option V :=
  m.table.findSome? fun e => if e.1 = some key then some e.2 else none

/-- The loop of `Put`. -/
def putLoop (key : K) (value : V) : List (Option K × V) → List (Option K × V)
  | [] => []
  | e :: es => if e.1.isNone then (some key, value) :: es else e :: putLoop key value es

def put (m : ArrayMap K V) (key : K) (value : V) : ArrayMap K V := ⟨putLoop key value m.table⟩

/-- The loop of `Delete`. -/
def deleteLoop (key : K) : List (Option K × V) → List (Option K × V)
  | [] => []
  | e :: es => if e.1 = some key then (none, e.2) :: es else e :: deleteLoop key es

def delete (m : ArrayMap K V) (key : K) : ArrayMap K V := ⟨deleteLoop key m.table⟩

/-- Some entry is free. -/
def HasFree (m : ArrayMap K V) : Prop := ∃ e ∈ m.table, e.1 = none

/-- Some entry has the key. -/
def Has (m : ArrayMap K V) (key : K) : Prop := ∃ e ∈ m.table, e.1 = some key

instance (m : ArrayMap K V) : Decidable m.HasFree :=
  inferInstanceAs (Decidable (∃ e ∈ m.table, e.1 = none))

instance (m : ArrayMap K V) (key : K) : Decidable (m.Has key) :=
  inferInstanceAs (Decidable (∃ e ∈ m.table, e.1 = some key))

variable {m : ArrayMap K V} {key key' : K} {value value' : V} {l : List (Option K × V)}

theorem mem_of_get (h : m.get key = some value) : (some key, value) ∈ m.table := by
  obtain ⟨e, he, hvalue⟩ := List.exists_of_findSome?_eq_some h
  obtain ⟨hkey, hvalue⟩ := Option.ite_none_right_eq_some.mp hvalue
  cases hvalue
  rwa [← hkey]

theorem Has.get (h : m.Has key) : ∃ value, m.get key = some value := by
  obtain ⟨e, he, hkey⟩ := h
  apply Option.isSome_iff_exists.mp
  rw [ArrayMap.get, List.findSome?_isSome_iff]
  exact ⟨e, he, by rw [if_pos hkey, Option.isSome_some]⟩

omit [DecidableEq K] in
theorem not_has_new [Inhabited V] (N : Nat) (key : K) : ¬(new K V N).Has key := by
  rintro ⟨e, he, hkey⟩
  rw [List.eq_of_mem_replicate he] at hkey
  cases hkey

omit [DecidableEq K] in
theorem mem_putLoop {e : Option K × V} (h : e ∈ putLoop key value l) :
    e = (some key, value) ∨ e ∈ l := by
  induction l with
  | nil => exact .inr h
  | cons e' es ih =>
    rw [putLoop] at h
    split at h
    · rcases List.mem_cons.mp h with h | h
      · exact .inl h
      · exact .inr (List.mem_cons_of_mem _ h)
    · rcases List.mem_cons.mp h with rfl | h
      · exact .inr List.mem_cons_self
      · exact (ih h).imp_right (List.mem_cons_of_mem _)

omit [DecidableEq K] in
/-- `Put` overwrites only a free entry. -/
theorem mem_putLoop_of_mem {e : Option K × V} (he : e ∈ l) (hkey : e.1 = some key') :
    e ∈ putLoop key value l := by
  induction l with
  | nil => exact he
  | cons e' es ih =>
    rw [putLoop]
    split
    · rename_i hnone
      rcases List.mem_cons.mp he with rfl | he
      · rw [hkey] at hnone
        cases hnone
      · exact List.mem_cons_of_mem _ he
    · rcases List.mem_cons.mp he with rfl | he
      · exact List.mem_cons_self
      · exact List.mem_cons_of_mem _ (ih he)

omit [DecidableEq K] in
theorem mem_putLoop_self {e : Option K × V} (he : e ∈ l) (hnone : e.1 = none) :
    (some key, value) ∈ putLoop key value l := by
  induction l with
  | nil => cases he
  | cons e' es ih =>
    rw [putLoop]
    split
    · exact List.mem_cons_self
    · rename_i hsome
      rcases List.mem_cons.mp he with rfl | he
      · rw [hnone] at hsome
        exact absurd rfl hsome
      · exact List.mem_cons_of_mem _ (ih he)

omit [DecidableEq K] in
theorem Has.put (h : m.Has key') (key : K) (value : V) : (m.put key value).Has key' := by
  obtain ⟨e, he, hkey⟩ := h
  exact ⟨e, mem_putLoop_of_mem he hkey, hkey⟩

omit [DecidableEq K] in
/-- The key is there after `Put` if an entry was free, or if it was there before. -/
theorem has_put (h : m.HasFree ∨ m.Has key) (value : V) : (m.put key value).Has key := by
  rcases h with ⟨e, he, hnone⟩ | h
  · exact ⟨_, mem_putLoop_self he hnone, rfl⟩
  · exact h.put key value

theorem mem_deleteLoop {e : Option K × V} (h : e ∈ deleteLoop key l) (hkey : e.1 = some key') :
    e ∈ l := by
  induction l with
  | nil => exact h
  | cons e' es ih =>
    rw [deleteLoop] at h
    split at h
    · rcases List.mem_cons.mp h with rfl | h
      · cases hkey
      · exact List.mem_cons_of_mem _ h
    · rcases List.mem_cons.mp h with rfl | h
      · exact List.mem_cons_self
      · exact List.mem_cons_of_mem _ (ih h)

/-- `Delete` leaves the other keys. -/
theorem mem_deleteLoop_of_ne {e : Option K × V} (he : e ∈ l) (hne : e.1 ≠ some key) :
    e ∈ deleteLoop key l := by
  induction l with
  | nil => exact he
  | cons e' es ih =>
    rw [deleteLoop]
    split
    · rename_i hkey
      rcases List.mem_cons.mp he with rfl | he
      · exact absurd hkey hne
      · exact List.mem_cons_of_mem _ he
    · rcases List.mem_cons.mp he with rfl | he
      · exact List.mem_cons_self
      · exact List.mem_cons_of_mem _ (ih he)

theorem Has.delete (h : m.Has key') (hne : key' ≠ key) : (m.delete key).Has key' := by
  obtain ⟨e, he, hkey⟩ := h
  refine ⟨e, mem_deleteLoop_of_ne he ?_, hkey⟩
  rw [hkey]
  exact fun h => hne (Option.some.inj h)

end ArrayMap

end MikanOS.Usb
