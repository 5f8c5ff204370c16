import MikanOS.Library.History
import MikanOS.Usb.ArrayMap

/-! # `ArrayMap` as a map

Whole histories of `Put`, `Get` and `Delete` (`arraymap.hpp`) against the finite map that they stand for. A
`Put` of a key that is there does not replace its value, so the two agree exactly as long as each new entry
comes to lie in front of the old one and no key with two entries is deleted. -/

namespace MikanOS.Usb

/-- A call of a member function of `ArrayMap`. -/
inductive MapCall (K V : Type) where
  | put (key : K) (value : V)
  | get (key : K)
  | delete (key : K)

namespace ArrayMap

variable {K V : Type} [DecidableEq K] {m : ArrayMap K V} {key key' : K} {value : V}
  {e : Option K × V} {l : List (Option K × V)}

/-- What a call leaves. -/
def call (m : ArrayMap K V) : MapCall K V → ArrayMap K V
  | .put key value => m.put key value
  | .get _ => m
  | .delete key => m.delete key

/-- A map of `N` entries after a history. -/
def after [Inhabited V] (N : Nat) (calls : List (MapCall K V)) : ArrayMap K V := calls.foldl call (new K V N)

/-- The map that a history stands for: the value of the latest `Put` of the key that no `Delete` of the key
follows. -/
def latest (calls : List (MapCall K V)) (key : K) : Option V :=
  calls.foldl (fun found c =>
    match c with
    | .put k value => if k = key then some value else found
    | .get _ => found
    | .delete k => if k = key then none else found) none

/-- The first entry that is free or has the key is free. -/
def FreeAhead (m : ArrayMap K V) (key : K) : Prop :=
  (m.table.find? fun e => e.1 = none ∨ e.1 = some key).any (·.1.isNone)

instance (m : ArrayMap K V) (key : K) : Decidable (m.FreeAhead key) := inferInstanceAs (Decidable (_ = true))

/-- The number of entries with the key. -/
def count (m : ArrayMap K V) (key : K) : Nat := m.table.countP (·.1 = some key)

/-- The calls that keep to the map: a `Put` finds a free entry ahead of those with its key, or does not
change the value, and a `Delete` finds at most one entry. -/
def Meets (m : ArrayMap K V) : MapCall K V → Prop
  | .put key value => m.FreeAhead key ∨ m.get key = some value
  | .get _ => True
  | .delete key => m.count key ≤ 1

/-! ## One call -/

theorem get_cons : get ⟨e :: l⟩ key = if e.1 = some key then some e.2 else get ⟨l⟩ key := by
  rw [get, List.findSome?_cons]
  split <;> simp_all [get]

theorem freeAhead_cons : FreeAhead ⟨e :: l⟩ key ↔ e.1 = none ∨ e.1 ≠ some key ∧ FreeAhead ⟨l⟩ key := by
  rw [FreeAhead, List.find?_cons]
  split
  · next h =>
    rw [decide_eq_true_iff] at h
    rw [Option.any_some, Option.isNone_iff_eq_none]
    exact ⟨.inl, fun hfree => hfree.elim id fun hother => h.resolve_right hother.1⟩
  · next h =>
    rw [decide_eq_false_iff_not, not_or] at h
    exact ⟨fun hfree => .inr ⟨h.2, hfree⟩, fun hfree => (hfree.resolve_left h.1).2⟩

theorem get_new [Inhabited V] (N : Nat) (key : K) : (new K V N).get key = none := by
  rw [get, List.findSome?_eq_none_iff]
  intro e he
  rw [List.eq_of_mem_replicate he, if_neg (Option.some_ne_none _).symm]

theorem get_eq_none_iff : m.get key = none ↔ m.count key = 0 := by
  simp [get, count, List.findSome?_eq_none_iff, List.countP_eq_zero]

theorem get_put_of_ne (hne : key' ≠ key) : (m.put key value).get key' = m.get key' := by
  obtain ⟨l⟩ := m
  change get ⟨putLoop key value l⟩ key' = _
  induction l with
  | nil => rfl
  | cons e l ih =>
    rw [putLoop]
    split
    · next hfree =>
      rw [get_cons, get_cons, if_neg (fun h => hne (Option.some.inj h).symm),
        Option.isNone_iff_eq_none.mp hfree, if_neg (Option.some_ne_none _).symm]
    · rw [get_cons, get_cons, ih]

theorem get_put_self : (m.put key value).get key = if m.FreeAhead key then some value else m.get key := by
  obtain ⟨l⟩ := m
  change get ⟨putLoop key value l⟩ key = _
  induction l with
  | nil => rfl
  | cons e l ih =>
    rw [putLoop]
    split
    · next hfree =>
      rw [get_cons, if_pos rfl, if_pos (freeAhead_cons.mpr (.inl (Option.isNone_iff_eq_none.mp hfree)))]
    · next hused =>
      have hused : e.1 ≠ none := mt Option.isNone_iff_eq_none.mpr hused
      have hrest : FreeAhead ⟨e :: l⟩ key ↔ e.1 ≠ some key ∧ FreeAhead ⟨l⟩ key :=
        freeAhead_cons.trans (or_iff_right hused)
      rw [get_cons, get_cons, ih]
      by_cases hkey : e.1 = some key
      · rw [if_pos hkey, if_pos hkey, if_neg (fun h => (hrest.mp h).1 hkey)]
      · rw [if_neg hkey, if_neg hkey]
        exact if_congr (hrest.trans (and_iff_right hkey)).symm rfl rfl

theorem get_delete_of_ne (hne : key' ≠ key) : (m.delete key).get key' = m.get key' := by
  obtain ⟨l⟩ := m
  change get ⟨deleteLoop key l⟩ key' = _
  induction l with
  | nil => rfl
  | cons e l ih =>
    rw [deleteLoop]
    split
    · next hkey =>
      rw [get_cons, get_cons, hkey, if_neg (Option.some_ne_none _).symm, if_neg (mt Option.some.inj hne.symm)]
    · rw [get_cons, get_cons, ih]

theorem get_delete_self : (m.delete key).get key = none ↔ m.count key ≤ 1 := by
  obtain ⟨l⟩ := m
  change get ⟨deleteLoop key l⟩ key = none ↔ _
  induction l with
  | nil => exact iff_of_true rfl (Nat.zero_le 1)
  | cons e l ih =>
    rw [deleteLoop]
    split
    · next hkey =>
      have hcount : count ⟨e :: l⟩ key = count ⟨l⟩ key + 1 :=
        List.countP_cons_of_pos (decide_eq_true hkey)
      rw [get_cons, if_neg (Option.some_ne_none _).symm, get_eq_none_iff, hcount]
      omega
    · next hkey =>
      have hcount : count ⟨e :: l⟩ key = count ⟨l⟩ key :=
        List.countP_cons_of_neg (by rw [decide_eq_true_iff]; exact hkey)
      rw [get_cons, if_neg hkey, ih, hcount]

/-! ## Histories -/

variable {calls : List (MapCall K V)} {c : MapCall K V}

theorem after_append [Inhabited V] (N : Nat) (calls : List (MapCall K V)) (c : MapCall K V) :
    after N (calls ++ [c]) = (after N calls).call c := by
  rw [after, List.foldl_append]
  rfl

theorem latest_put : latest (calls ++ [.put key value]) key' =
    if key = key' then some value else latest calls key' := by
  rw [latest, List.foldl_append]
  rfl

theorem latest_get : latest (calls ++ [.get key]) key' = latest calls key' := by
  rw [latest, List.foldl_append]
  rfl

theorem latest_delete : latest (calls ++ [.delete key]) key' =
    if key = key' then none else latest calls key' := by
  rw [latest, List.foldl_append]
  rfl

/-- A call that meets its condition changes the map as it should, and no other does. -/
theorem call_iff (h : ∀ key, m.get key = latest calls key) :
    (∀ key, (m.call c).get key = latest (calls ++ [c]) key) ↔ m.Meets c := by
  cases c with
  | put k value =>
    have hself : (m.put k value).get k = some value ↔ m.Meets (.put k value) := by
      rw [get_put_self, Meets]
      split
      · next hfree => exact iff_of_true rfl (.inl hfree)
      · next hfree => exact (or_iff_right hfree).symm
    rw [← hself]
    constructor
    · intro hget
      exact (hget k).trans (latest_put.trans (if_pos rfl))
    · intro hput key
      rw [latest_put, call]
      split
      · next heq => exact heq ▸ hput
      · next hne => rw [get_put_of_ne (Ne.symm hne), h]
  | get k => exact iff_of_true (fun key => (h key).trans latest_get.symm) trivial
  | delete k =>
    rw [Meets, ← get_delete_self]
    constructor
    · intro hget
      exact (hget k).trans (latest_delete.trans (if_pos rfl))
    · intro hdelete key
      rw [latest_delete, call]
      split
      · next heq => exact heq ▸ hdelete
      · next hne => rw [get_delete_of_ne (Ne.symm hne), h]

/-- After every beginning of a history the table has what the history stands for if and only if each of its
calls meets its condition. -/
theorem history_iff [Inhabited V] (N : Nat) (calls : List (MapCall K V)) :
    (∀ before, before <+: calls → ∀ key, (after N before).get key = latest before key) ↔
      ∀ before c, before ++ [c] <+: calls → (after N before).Meets c := by
  refine History.forall_prefix_iff (get_new N) fun before c _ hbefore => ?_
  rw [after_append]
  exact call_iff hbefore

/-- One key, put twice: `Get` finds the first value. -/
theorem put_twice : ¬∀ calls : List (MapCall Nat Nat),
    (∀ before, before <+: calls → ∀ keys : Finset Nat, (∀ key ∈ keys, (latest before key).isSome) →
      keys.card ≤ 16) →
    ∀ before, before <+: calls → ∀ key, (after 16 before).get key = latest before key := by
  intro h
  have hget := h [.put 1 10, .put 1 20] ?_ _ (List.prefix_refl _) 1
  · exact absurd hget (by decide)
  · intro before hbefore keys hkeys
    have hone : ∀ key ∈ keys, key = 1 := fun key hkey => by
      have hsome := hkeys key hkey
      rw [← List.mem_inits] at hbefore
      simp only [List.inits, List.map_cons, List.map_nil, List.mem_cons, List.not_mem_nil, or_false] at hbefore
      by_contra hne
      rcases hbefore with rfl | rfl | rfl <;> simp [latest, Ne.symm hne] at hsome
    have hsub : keys ⊆ {1} := fun key hkey => Finset.mem_singleton.mpr (hone key hkey)
    exact (Finset.card_le_card hsub).trans (by decide)

/-! ## Histories that put only absent keys -/

/-- The table holds each key once. -/
def Single (m : ArrayMap K V) : Prop := ∀ key, m.count key ≤ 1

theorem count_put_le (m : ArrayMap K V) (key : K) (value : V) (key' : K) :
    (m.put key value).count key' ≤ m.count key' + if key = key' then 1 else 0 := by
  obtain ⟨l⟩ := m
  change (putLoop key value l).countP _ ≤ l.countP _ + _
  induction l with
  | nil => exact Nat.zero_le _
  | cons e l ih =>
    rw [putLoop]
    split
    · simp only [List.countP_cons, Option.some_inj, decide_eq_true_eq]
      omega
    · rw [List.countP_cons, List.countP_cons]
      omega

theorem count_delete_le (m : ArrayMap K V) (key key' : K) : (m.delete key).count key' ≤ m.count key' := by
  obtain ⟨l⟩ := m
  change (deleteLoop key l).countP _ ≤ l.countP _
  induction l with
  | nil => exact le_rfl
  | cons e l ih =>
    rw [deleteLoop]
    split
    · simp [List.countP_cons]
    · rw [List.countP_cons, List.countP_cons]
      exact Nat.add_le_add_right ih _

theorem length_call (m : ArrayMap K V) (c : MapCall K V) : (m.call c).table.length = m.table.length := by
  have hput (key : K) (value : V) (l : List (Option K × V)) :
      (putLoop key value l).length = l.length := by
    induction l with
    | nil => rfl
    | cons e l ih =>
      rw [putLoop]
      split
      · rfl
      · exact congrArg Nat.succ ih
  have hdelete (key : K) (l : List (Option K × V)) : (deleteLoop key l).length = l.length := by
    induction l with
    | nil => rfl
    | cons e l ih =>
      rw [deleteLoop]
      split
      · rfl
      · exact congrArg Nat.succ ih
  cases c with
  | put key value => exact hput key value m.table
  | get key => rfl
  | delete key => exact hdelete key m.table

theorem freeAhead_of_hasFree (h : m.HasFree) (habsent : m.count key = 0) : m.FreeAhead key := by
  obtain ⟨l⟩ := m
  obtain ⟨e, he, hfree⟩ := h
  change e ∈ l at he
  induction l with
  | nil => cases he
  | cons e' l ih =>
    rw [count, List.countP_eq_zero] at habsent
    rw [freeAhead_cons]
    rcases List.mem_cons.mp he with rfl | he
    · exact .inl hfree
    · refine .inr ⟨fun hkey => habsent e' List.mem_cons_self (decide_eq_true hkey), ih ?_ he⟩
      exact List.countP_eq_zero.mpr fun e he => habsent e (List.mem_cons_of_mem _ he)

/-- Where each key is held once and fewer keys are there than entries, one is free. -/
theorem Single.hasFree (h : m.Single)
    (hkeys : ∀ keys : Finset K, (∀ key ∈ keys, (m.get key).isSome) → keys.card < m.table.length) :
    m.HasFree := by
  by_contra hfull
  have hused : ∀ e ∈ m.table, e.1.isSome := fun e he =>
    Option.isSome_iff_ne_none.mpr fun hnone => hfull ⟨e, he, hnone⟩
  have hlength : (m.table.filterMap Prod.fst).length = m.table.length := by
    rw [List.length_filterMap_eq_countP, List.countP_eq_length]
    exact hused
  have hnodup : (m.table.filterMap Prod.fst).Nodup := by
    refine List.nodup_iff_count_le_one.mpr fun key => ?_
    rw [List.count_filterMap]
    exact le_of_eq_of_le (List.countP_congr fun e _ => by simp) (h key)
  have hcard := hkeys (m.table.filterMap Prod.fst).toFinset fun key hkey => by
    obtain ⟨e, he, hkey⟩ := List.mem_filterMap.mp (List.mem_toFinset.mp hkey)
    obtain ⟨value, hvalue⟩ := Has.get ⟨e, he, hkey⟩
    rw [hvalue]
    rfl
  rw [List.toFinset_card_of_nodup hnodup, hlength] at hcard
  exact Nat.lt_irrefl _ hcard

/-- With at most `N` keys at a time, a history whose `Put`s are of keys that are not there keeps to its map. -/
theorem history_of_absent [Inhabited V] {N : Nat}
    (hkeys : ∀ before, before <+: calls → ∀ keys : Finset K,
      (∀ key ∈ keys, (latest before key).isSome) → keys.card ≤ N)
    (habsent : ∀ before key value, before ++ [.put key value] <+: calls → latest before key = none) :
    ∀ key, (after N calls).get key = latest calls key := by
  suffices h : (∀ key, (after N calls).get key = latest calls key) ∧ (after N calls).Single ∧
      (after N calls).table.length = N from h.1
  induction calls using List.reverseRecOn with
  | nil =>
    refine ⟨get_new N, fun key => ?_, List.length_replicate⟩
    exact (get_eq_none_iff.mp (get_new N key)).trans_le (Nat.zero_le 1)
  | append_singleton calls c ih =>
    obtain ⟨hget, hsingle, hlength⟩ := ih
      (fun before hbefore => hkeys before (hbefore.trans (List.prefix_append _ _)))
      fun before key value hbefore => habsent before key value (hbefore.trans (List.prefix_append _ _))
    rw [after_append]
    refine ⟨(call_iff hget).mpr ?_, ?_, (length_call _ c).trans hlength⟩
    · cases c with
      | put key value =>
        have hnone := habsent calls key value (List.prefix_refl _)
        refine .inl (freeAhead_of_hasFree (hsingle.hasFree fun keys hpresent => ?_)
          (get_eq_none_iff.mp ((hget key).trans hnone)))
        have hnotMem : key ∉ keys := fun hmem => by
          have hsome := hpresent key hmem
          rw [hget, hnone] at hsome
          cases hsome
        have hcard := hkeys _ (List.prefix_refl _) (insert key keys) fun key' hkey' => by
          rw [latest_put]
          split
          · rfl
          · next hne =>
            exact hget key' ▸ hpresent key' ((Finset.mem_insert.mp hkey').resolve_left (Ne.symm hne))
        rw [Finset.card_insert_of_notMem hnotMem] at hcard
        exact hcard.trans_eq hlength.symm
      | get key => exact trivial
      | delete key => exact hsingle key
    · intro key'
      cases c with
      | put key value =>
        have hnone := habsent calls key value (List.prefix_refl _)
        have hcount := get_eq_none_iff.mp ((hget key).trans hnone)
        have hle := count_put_le (after N calls) key value key'
        have hsingle := hsingle key'
        rw [call]
        split at hle
        · next heq =>
          rw [heq] at hcount
          omega
        · omega
      | get key => exact hsingle key'
      | delete key => exact (count_delete_le _ key key').trans (hsingle key')

end ArrayMap

end MikanOS.Usb
