import MikanOS.Library.PathTree
import MikanOS.Paging.MissingPages

/-! # One tree of page tables

The tree below `CR3` as the MMU walks it, in both halves and with huge pages in it. A table is known by the
indices on the way down to it, the last one first. The flags that the entries have do not matter here. -/

namespace MikanOS

open PageMapEntry LinearAddress4Level Memory PathTree

/-- The table that an entry at some depth links to: a page table's entries link to none, and neither do
those of huge pages, which PML4 entries never are. -/
def tableLink (depth : Nat) (e : PageMapEntry) : Option Nat :=
  if e.present ∧ depth < 3 ∧ ¬ (e.hugePage ∧ 0 < depth) then some e.pointer else none

namespace Machine

variable (m : Machine)

/-- The table at the end of some indices. -/
def tableAt (p : List (Fin 512)) : Option Nat := nodeAt tableLink m.mem m.cr3 p

/-- An entry of the table at the end of some indices; it is zero where there is no such table. -/
def slot (p : List (Fin 512)) (i : Fin 512) : PageMapEntry :=
  ((m.tableAt p).map fun n => m.mem n i).getD 0

/-- No table stands at two places, the tables and the pages are allocated, no page is a table, and no
absent entry is marked as a huge page. -/
structure WellFormed : Prop where
  apart : Apart tableLink m.mem m.cr3
  allocated : ∀ p n, m.tableAt p = some n → n ∉ m.freeFrames
  absent : ∀ p n i, m.tableAt p = some n → p.length < 3 → (m.mem n i).present = false →
    (m.mem n i).hugePage = false
  page : ∀ p n i, m.tableAt p = some n → p.length = 3 → (m.mem n i).present = true →
    (m.mem n i).pointer ∉ m.freeFrames ∧ ∀ q, m.tableAt q ≠ some (m.mem n i).pointer

end Machine

variable {m m' : Machine} {n c : Nat} {p q : List (Fin 512)} {i j : Fin 512} {w : Bool}
  {addr : LinearAddress4Level}

/-- The assignments of `SetupPageMap` to the flags of an entry. -/
def Machine.setLeafFlags (m : Machine) (n : Nat) (i : Fin 512) (w : Bool) : Machine :=
  let m := m.setEntry n i ((m.mem n i).setUser true)
  m.setEntry n i ((m.mem n i).setWritable w)

theorem tableLink_congr {depth : Nat} {e e' : PageMapEntry} (hpresent : e'.present = e.present)
    (hpointer : e'.pointer = e.pointer) (hhuge : e'.hugePage = e.hugePage) :
    tableLink depth e' = tableLink depth e := by
  rw [tableLink, tableLink, hpresent, hpointer, hhuge]

theorem tableLink_absent {depth : Nat} {e : PageMapEntry} (h : e.present = false) :
    tableLink depth e = none := by
  rw [tableLink, if_neg]
  rintro ⟨hpresent, -⟩
  rw [h] at hpresent
  cases hpresent

theorem tableLink_page {depth : Nat} (h : 3 ≤ depth) (e : PageMapEntry) : tableLink depth e = none := by
  rw [tableLink, if_neg]
  rintro ⟨-, hlt, -⟩
  omega

theorem tableLink_table {depth : Nat} {e : PageMapEntry} (hpresent : e.present = true)
    (hdepth : depth < 3) (hhuge : 0 < depth → e.hugePage = false) :
    tableLink depth e = some e.pointer := by
  rw [tableLink, if_pos]
  refine ⟨hpresent, hdepth, fun ⟨htrue, hpos⟩ => ?_⟩
  rw [hhuge hpos] at htrue
  cases htrue

theorem Machine.slot_of_table (h : m.tableAt p = some n) (i : Fin 512) : m.slot p i = m.mem n i := by
  rw [slot, h]
  rfl

theorem Machine.slot_of_none (h : m.tableAt p = none) (i : Fin 512) : m.slot p i = 0 := by
  rw [slot, h]
  rfl

theorem Machine.tableAt_cons (h : m.tableAt p = some n) :
    m.tableAt (i :: p) = tableLink p.length (m.mem n i) := nodeAt_cons h

theorem Machine.tableAt_length (h : m.tableAt p = some n) : p.length ≤ 3 := by
  cases p with
  | nil => exact Nat.zero_le _
  | cons i p =>
    obtain ⟨n', -, hlink⟩ := nodeAt_parent h
    by_contra hlen
    rw [tableLink_page (by rw [List.length_cons] at hlen; omega)] at hlink
    cases hlink

/-! ## One entry -/

/-- What `SetupPageMap` has done to an entry of a table before it goes on: an entry that was present keeps
its pointer, and another one got a zeroed frame. -/
structure Touched (w : Bool) (n c : Nat) (i : Fin 512) (m m' : Machine) : Prop where
  present : (m'.mem n i).present = true
  user : (m'.mem n i).user = true
  writable : (m'.mem n i).writable = w
  pointer : (m'.mem n i).pointer = c
  hugePage : (m'.mem n i).hugePage = (m.mem n i).hugePage
  found : (m.mem n i).present = true → (m.mem n i).pointer = c ∧ m'.freeFrames = m.freeFrames ∧
    ∀ f j, (f = n → j ≠ i) → m'.mem f j = m.mem f j
  filled : (m.mem n i).present = false → c ∈ m.freeFrames ∧ m'.freeFrames = m.freeFrames.erase c ∧
    (m'.mem c = fun _ => 0) ∧ ∀ f j, f ≠ c → (f = n → j ≠ i) → m'.mem f j = m.mem f j
  rangeEnd : m'.memoryManager.rangeEnd = m.memoryManager.rangeEnd
  cr3 : m'.cr3 = m.cr3

theorem Machine.setLeafFlags_mem (m : Machine) (n : Nat) (i : Fin 512) (w : Bool) :
    (m.setLeafFlags n i w).mem =
      m.mem.setEntry n i (((m.mem n i).setUser true).setWritable w) := by
  simp only [setLeafFlags, setEntry, setEntry_self, setEntry_setEntry]

/-- `SetNewPageMapIfNotPresent` and the assignments after it. -/
theorem setNewPageMap_touches (w : Bool) (hn : n ∉ m.freeFrames) (i : Fin 512)
    (hend : m.memoryManager.rangeEnd ≤ 2 ^ 40)
    (hok : (m.setNewPageMapIfNotPresent n i).1.error = .kSuccess) :
    ∃ c m₁, m.setNewPageMapIfNotPresent n i = (⟨c, .kSuccess⟩, m₁) ∧
      Touched w n c i m (m₁.setLeafFlags n i w) := by
  have hother (m₁ : Machine) {f : Nat} {j : Fin 512} (hj : f = n → j ≠ i) :
      (m₁.setLeafFlags n i w).mem f j = m₁.mem f j := by
    rw [Machine.setLeafFlags_mem, setEntry_apply, if_neg fun h => hj h.1 h.2]
  rw [Machine.setNewPageMapIfNotPresent] at hok ⊢
  cases hpresent : (m.mem n i).present with
  | true =>
    refine ⟨(m.mem n i).pointer, m, if_pos rfl, ?_, ?_, ?_, ?_, ?_, fun _ => ⟨rfl, rfl, fun f j hj =>
      hother m hj⟩, fun h => absurd (hpresent.symm.trans h) (by decide), rfl, rfl⟩
    all_goals
      rw [Machine.setLeafFlags_mem, setEntry_self]
      simp [hpresent]
  | false =>
    simp only [hpresent, Bool.false_eq_true, if_false] at hok ⊢
    rcases newPageMap_free m with ⟨c, m₁, hnew, hc, hcend, hmem₁, hmgr₁, hfree₁, hcr3₁⟩ | ⟨-, hnew⟩
    · have hnc : n ≠ c := by
        rintro rfl
        exact hn hc
      have hentry : m₁.mem n i = m.mem n i := by rw [hmem₁, setPage_of_ne _ hnc]
      simp only [hnew, if_true]
      refine ⟨c, _, rfl, ?_, ?_, ?_, ?_, ?_, fun h => absurd (hpresent.symm.trans h) (by decide),
        fun _ => ⟨hc, hfree₁, ?_, fun f j hfc hj => ?_⟩, ?_, hcr3₁⟩
      · rw [Machine.setLeafFlags_mem, setEntry_self]
        simp
      · rw [Machine.setLeafFlags_mem, setEntry_self]
        simp
      · rw [Machine.setLeafFlags_mem, setEntry_self]
        simp
      · rw [Machine.setLeafFlags_mem, setEntry_self]
        simp [pointer_setPointer (hcend.trans_le hend)]
      · rw [Machine.setLeafFlags_mem, setEntry_self]
        simp [hentry]
      · funext j
        rw [hother _ fun h => absurd h hnc.symm]
        simp [Machine.setEntry, hmem₁, setEntry_of_ne _ hnc.symm]
      · rw [hother _ hj]
        simp only [Machine.setEntry, setEntry_setEntry, setEntry_apply, if_neg fun h : f = n ∧ j = i =>
          hj h.1 h.2, hmem₁, setPage_of_ne _ hfc]
      · change m₁.memoryManager.rangeEnd = m.memoryManager.rangeEnd
        rw [hmgr₁, BitmapMemoryManager.markAllocated_rangeEnd]
    · rw [hnew] at hok
      cases hok

namespace Touched

/-- Other entries of allocated frames stay as they are. -/
theorem other (t : Touched w n c i m m') {f : Nat} (hf : f ∉ m.freeFrames) (hj : f = n → j ≠ i) :
    m'.mem f j = m.mem f j := by
  cases hpresent : (m.mem n i).present with
  | true => exact (t.found hpresent).2.2 f j hj
  | false =>
    obtain ⟨hc, -, -, hother⟩ := t.filled hpresent
    exact hother f j (fun hfc => hf (hfc ▸ hc)) hj

theorem free_subset (t : Touched w n c i m m') : m'.freeFrames ⊆ m.freeFrames := by
  cases hpresent : (m.mem n i).present with
  | true => rw [(t.found hpresent).2.1]
  | false =>
    rw [(t.filled hpresent).2.1]
    exact Finset.erase_subset c m.freeFrames

variable (H : m.WellFormed) (hn : m.tableAt p = some n)
include H hn

/-- An entry that was present links to the same table, and an entry of a page table to none. -/
theorem tableAt_same (t : Touched w n c i m m') (h : (m.mem n i).present = true ∨ p.length = 3)
    (q : List (Fin 512)) : m'.tableAt q = m.tableAt q := by
  rw [Machine.tableAt, t.cr3]
  refine nodeAt_congr (fun q f j hf => ?_) q
  by_cases hfn : f = n ∧ j = i
  · obtain ⟨rfl, rfl⟩ := hfn
    rcases h with hpresent | hp
    · exact tableLink_congr (t.present.trans hpresent.symm) (t.pointer.trans (t.found hpresent).1.symm)
        t.hugePage
    · obtain rfl : q = p := H.apart q p f hf hn
      rw [tableLink_page hp.ge, tableLink_page hp.ge]
  · rw [t.other (H.allocated q f hf) fun hf hj => hfn ⟨hf, hj⟩]

/-- An entry that was absent links to a new table. -/
theorem tableAt_new (t : Touched w n c i m m') (habsent : (m.mem n i).present = false)
    (hp : p.length < 3) (q : List (Fin 512)) :
    m'.tableAt q = if q = i :: p then some c else m.tableAt q := by
  obtain ⟨hc, -, hzero, -⟩ := t.filled habsent
  have hhuge := t.hugePage.trans (H.absent p n i hn hp habsent)
  rw [Machine.tableAt, t.cr3]
  refine nodeAt_link hn (tableLink_absent habsent) ?_ (fun d j => ?_) (fun q f j hf hq => ?_) q
  · rw [tableLink_table t.present hp fun _ => hhuge, t.pointer]
  · rw [hzero, tableLink_absent present_zero]
  · rw [t.other (H.allocated q f hf) fun hfn => hq (H.apart q p f hf (hfn ▸ hn))]

theorem table (t : Touched w n c i m m') {f : Nat} (hf : m.tableAt q = some f) :
    m'.tableAt q = some f := by
  by_cases h : (m.mem n i).present = true ∨ p.length = 3
  · rw [t.tableAt_same H hn h, hf]
  · obtain ⟨habsent, hp⟩ := not_or.mp h
    have hle := Machine.tableAt_length hn
    rw [t.tableAt_new H hn (Bool.eq_false_of_not_eq_true habsent) (by omega), if_neg, hf]
    rintro rfl
    rw [Machine.tableAt_cons hn, tableLink_absent (Bool.eq_false_of_not_eq_true habsent)] at hf
    cases hf

/-- The tables afterwards: those from before and the new one, which is empty. -/
theorem table_cases (t : Touched w n c i m m') {f : Nat} (hf : m'.tableAt q = some f) :
    m.tableAt q = some f ∨
      ((m.mem n i).present = false ∧ p.length < 3 ∧ q = i :: p ∧ f = c ∧ m.tableAt q = none) := by
  by_cases h : (m.mem n i).present = true ∨ p.length = 3
  · rw [t.tableAt_same H hn h] at hf
    exact .inl hf
  · obtain ⟨habsent, hp⟩ := not_or.mp h
    have habsent := Bool.eq_false_of_not_eq_true habsent
    have hle := Machine.tableAt_length hn
    rw [t.tableAt_new H hn habsent (by omega)] at hf
    split at hf
    · next hq =>
      refine .inr ⟨habsent, by omega, hq, (Option.some.inj hf).symm, ?_⟩
      rw [hq, Machine.tableAt_cons hn, tableLink_absent habsent]
    · exact .inl hf

theorem slot_self (t : Touched w n c i m m') : m'.slot p i = m'.mem n i :=
  Machine.slot_of_table (t.table H hn hn) i

theorem slot_other (t : Touched w n c i m m') (h : j :: q ≠ i :: p) : m'.slot q j = m.slot q j := by
  cases hq : m'.tableAt q with
  | none =>
    cases hq' : m.tableAt q with
    | none => rw [Machine.slot_of_none hq, Machine.slot_of_none hq']
    | some f =>
      rw [t.table H hn hq'] at hq
      cases hq
  | some f =>
    rw [Machine.slot_of_table hq]
    rcases t.table_cases H hn hq with hq' | ⟨habsent, -, -, rfl, hq'⟩
    · rw [Machine.slot_of_table hq']
      refine t.other (H.allocated q f hq') fun hfn hj => h ?_
      rw [H.apart q p f hq' (hfn ▸ hn), hj]
    · rw [Machine.slot_of_none hq', (t.filled habsent).2.2.1]

theorem wellFormed (t : Touched w n c i m m') : m'.WellFormed where
  apart q q' f hf hf' := by
    rcases t.table_cases H hn hf with hf | ⟨habsent, -, hq, rfl, -⟩ <;>
      rcases t.table_cases H hn hf' with hf' | ⟨habsent', -, hq', hfc, -⟩
    · exact H.apart q q' f hf hf'
    · subst hfc
      exact absurd (t.filled habsent').1 (H.allocated q f hf)
    · exact absurd (t.filled habsent).1 (H.allocated q' f hf')
    · rw [hq, hq']
  allocated q f hf hfree := by
    rcases t.table_cases H hn hf with hf | ⟨habsent, -, -, rfl, -⟩
    · exact H.allocated q f hf (t.free_subset hfree)
    · rw [(t.filled habsent).2.1] at hfree
      exact Finset.notMem_erase f m.freeFrames hfree
  absent q f j hf hq habsent := by
    rcases t.table_cases H hn hf with hf | ⟨habsent', -, -, rfl, -⟩
    · by_cases hfn : f = n ∧ j = i
      · obtain ⟨rfl, rfl⟩ := hfn
        rw [t.present] at habsent
        cases habsent
      · have hsame := t.other (j := j) (H.allocated q f hf) fun hf hj => hfn ⟨hf, hj⟩
        rw [hsame] at habsent ⊢
        exact H.absent q f j hf hq habsent
    · rw [(t.filled habsent').2.2.1, hugePage_zero]
  page q f j hf hq hpresent := by
    rcases t.table_cases H hn hf with hf | ⟨habsent, -, -, rfl, -⟩
    · by_cases hfn : f = n ∧ j = i
      · obtain ⟨rfl, rfl⟩ := hfn
        obtain rfl : q = p := H.apart q p f hf hn
        rw [t.pointer]
        simp only [t.tableAt_same H hn (.inr hq)]
        cases hpresent : (m.mem f j).present with
        | true =>
          obtain ⟨hc, hfree, -⟩ := t.found hpresent
          rw [hfree, ← hc]
          exact H.page q f j hn hq hpresent
        | false =>
          obtain ⟨hc, hfree, -⟩ := t.filled hpresent
          rw [hfree]
          exact ⟨Finset.notMem_erase c m.freeFrames, fun q' hq' => H.allocated q' c hq' hc⟩
      · have hsame := t.other (j := j) (H.allocated q f hf) fun hf hj => hfn ⟨hf, hj⟩
        rw [hsame] at hpresent ⊢
        obtain ⟨hfree, htable⟩ := H.page q f j hf hq hpresent
        refine ⟨fun h => hfree (t.free_subset h), fun q' hq' => ?_⟩
        rcases t.table_cases H hn hq' with hq' | ⟨habsent, -, -, hc, -⟩
        · exact htable q' hq'
        · rw [hc] at hfree
          exact hfree (t.filled habsent).1
    · rw [(t.filled habsent).2.2.1, present_zero] at hpresent
      cases hpresent

end Touched

/-! ## Any number of entries -/

/-- What `SetupPageMap` has done to the entries in `T`, `w` being the writable bit of the pages. The other
entries of the tree are as they were, and so is what is neither free nor a table. -/
structure SetsUpEntries (w : Bool) (T : Set (List (Fin 512))) (m m' : Machine) : Prop where
  wellFormed : m'.WellFormed
  rangeEnd : m'.memoryManager.rangeEnd = m.memoryManager.rangeEnd
  cr3 : m'.cr3 = m.cr3
  free : m'.freeFrames ⊆ m.freeFrames
  table : ∀ p n, m.tableAt p = some n → m'.tableAt p = some n
  other : ∀ p i, i :: p ∉ T → m'.slot p i = m.slot p i
  flags : ∀ p i, i :: p ∈ T → (m'.slot p i).present = true ∧ (m'.slot p i).user = true ∧
    (m'.slot p i).writable = (if p.length = 3 then w else true)
  hugePage : ∀ p i, (m'.slot p i).hugePage = (m.slot p i).hugePage
  kept : ∀ p i, (m.slot p i).present = true →
    (m'.slot p i).present = true ∧ (m'.slot p i).pointer = (m.slot p i).pointer
  fresh : ∀ p i, i :: p ∈ T → p.length = 3 → (m.slot p i).present = false →
    (m'.slot p i).pointer ∈ m.freeFrames ∧ (m'.slot p i).pointer ∉ m'.freeFrames ∧
      m'.mem (m'.slot p i).pointer = fun _ => 0
  frames : ∀ f, f ∉ m.freeFrames → (∀ q, m.tableAt q ≠ some f) →
    m'.mem f = m.mem f ∧ ∀ q, m'.tableAt q ≠ some f
  distinct : ∀ p i q j, i :: p ∈ T → j :: q ∈ T → p.length = 3 → q.length = 3 →
    (m.slot p i).present = false → (m.slot q j).present = false → i :: p ≠ j :: q →
      (m'.slot p i).pointer ≠ (m'.slot q j).pointer

theorem Machine.WellFormed.page_of_slot (H : m.WellFormed) (hp : p.length = 3)
    (hpresent : (m.slot p i).present = true) :
    (m.slot p i).pointer ∉ m.freeFrames ∧ ∀ q, m.tableAt q ≠ some (m.slot p i).pointer := by
  cases hn : m.tableAt p with
  | none =>
    rw [Machine.slot_of_none hn, present_zero] at hpresent
    cases hpresent
  | some n =>
    rw [Machine.slot_of_table hn] at hpresent ⊢
    exact H.page p n i hn hp hpresent

theorem Touched.setsUpEntries {b : Bool} (t : Touched b n c i m m') (H : m.WellFormed)
    (hn : m.tableAt p = some n) (hb : b = if p.length = 3 then w else true) :
    SetsUpEntries w {i :: p} m m' where
  wellFormed := t.wellFormed H hn
  rangeEnd := t.rangeEnd
  cr3 := t.cr3
  free := t.free_subset
  table q f hf := t.table H hn hf
  other q j hj := t.slot_other H hn hj
  flags q j hj := by
    obtain ⟨rfl, rfl⟩ := List.cons.inj (Set.mem_singleton_iff.mp hj)
    rw [t.slot_self H hn, ← hb]
    exact ⟨t.present, t.user, t.writable⟩
  hugePage q j := by
    by_cases hj : j :: q = i :: p
    · obtain ⟨rfl, rfl⟩ := List.cons.inj hj
      rw [t.slot_self H hn, t.hugePage, Machine.slot_of_table hn]
    · rw [t.slot_other H hn hj]
  kept q j hpresent := by
    by_cases hj : j :: q = i :: p
    · obtain ⟨rfl, rfl⟩ := List.cons.inj hj
      rw [Machine.slot_of_table hn] at hpresent ⊢
      rw [t.slot_self H hn]
      exact ⟨t.present, t.pointer.trans (t.found hpresent).1.symm⟩
    · rw [t.slot_other H hn hj]
      exact ⟨hpresent, rfl⟩
  fresh q j hj hq habsent := by
    obtain ⟨rfl, rfl⟩ := List.cons.inj (Set.mem_singleton_iff.mp hj)
    rw [Machine.slot_of_table hn] at habsent
    obtain ⟨hc, hfree, hzero, -⟩ := t.filled habsent
    rw [t.slot_self H hn, t.pointer, hfree]
    exact ⟨hc, Finset.notMem_erase c m.freeFrames, hzero⟩
  frames f hf htable := by
    refine ⟨funext fun j => t.other hf fun hfn => absurd (hfn ▸ hn) (htable p), fun q hq => ?_⟩
    rcases t.table_cases H hn hq with hq | ⟨habsent, -, -, rfl, -⟩
    · exact htable q hq
    · exact hf (t.filled habsent).1
  distinct q j q' j' hj hj' _ _ _ _ hne := by
    rw [Set.mem_singleton_iff] at hj hj'
    exact absurd (hj.trans hj'.symm) hne

theorem SetsUpEntries.refl (H : m.WellFormed) : SetsUpEntries w ∅ m m where
  wellFormed := H
  rangeEnd := rfl
  cr3 := rfl
  free := Finset.Subset.refl _
  table _ _ hn := hn
  other _ _ _ := rfl
  flags _ _ h := absurd h (Set.notMem_empty _)
  hugePage _ _ := rfl
  kept _ _ h := ⟨h, rfl⟩
  fresh _ _ h := absurd h (Set.notMem_empty _)
  frames _ _ htable := ⟨rfl, htable⟩
  distinct _ _ _ _ h := absurd h (Set.notMem_empty _)

namespace SetsUpEntries

variable {m'' : Machine} {T T' : Set (List (Fin 512))}

/-- The new pages of the first part stay where they are, and zeroed. -/
theorem fresh_trans (h : SetsUpEntries w T m m') (h' : SetsUpEntries w T' m' m'') (hT : i :: p ∈ T)
    (hp : p.length = 3) (habsent : (m.slot p i).present = false) :
    (m''.slot p i).pointer = (m'.slot p i).pointer ∧ (m''.slot p i).pointer ∈ m.freeFrames ∧
      (m''.slot p i).pointer ∉ m''.freeFrames ∧ m''.mem (m''.slot p i).pointer = fun _ => 0 := by
  obtain ⟨hpresent, -⟩ := h.flags p i hT
  obtain ⟨hfree, hfree', hzero⟩ := h.fresh p i hT hp habsent
  obtain ⟨-, htable⟩ := h.wellFormed.page_of_slot hp hpresent
  have hpointer := (h'.kept p i hpresent).2
  rw [hpointer, (h'.frames _ hfree' htable).1]
  exact ⟨rfl, hfree, fun hfree'' => hfree' (h'.free hfree''), hzero⟩

theorem trans (h : SetsUpEntries w T m m') (h' : SetsUpEntries w T' m' m'') :
    SetsUpEntries w (T ∪ T') m m'' where
  wellFormed := h'.wellFormed
  rangeEnd := h'.rangeEnd.trans h.rangeEnd
  cr3 := h'.cr3.trans h.cr3
  free := h'.free.trans h.free
  table p n hn := h'.table p n (h.table p n hn)
  other p i hi := by
    obtain ⟨hT, hT'⟩ := not_or.mp hi
    rw [h'.other p i hT', h.other p i hT]
  flags p i hi := by
    by_cases hT' : i :: p ∈ T'
    · exact h'.flags p i hT'
    · rw [h'.other p i hT']
      exact h.flags p i (hi.resolve_right hT')
  hugePage p i := (h'.hugePage p i).trans (h.hugePage p i)
  kept p i hpresent := by
    obtain ⟨hpresent', hpointer⟩ := h.kept p i hpresent
    obtain ⟨hpresent'', hpointer'⟩ := h'.kept p i hpresent'
    exact ⟨hpresent'', hpointer'.trans hpointer⟩
  fresh p i hi hp habsent := by
    by_cases hT : i :: p ∈ T
    · exact (h.fresh_trans h' hT hp habsent).2
    · have hT' := hi.resolve_left hT
      rw [← h.other p i hT] at habsent
      obtain ⟨hfree, hfree', hzero⟩ := h'.fresh p i hT' hp habsent
      exact ⟨h.free hfree, hfree', hzero⟩
  frames f hf htable := by
    obtain ⟨hmem, htable'⟩ := h.frames f hf htable
    obtain ⟨hmem', htable''⟩ := h'.frames f (fun hf' => hf (h.free hf')) htable'
    exact ⟨hmem'.trans hmem, htable''⟩
  distinct p i q j hi hj hp hq habsent habsent' hne := by
    -- A new page of the first part is not free for the second.
    have hcross {p q : List (Fin 512)} {i j : Fin 512} (hT : i :: p ∈ T) (hj : j :: q ∈ T ∪ T')
        (hT' : j :: q ∉ T) (hp : p.length = 3) (hq : q.length = 3)
        (habsent : (m.slot p i).present = false) (habsent' : (m.slot q j).present = false) :
        (m''.slot p i).pointer ≠ (m''.slot q j).pointer := by
      rw [← h.other q j hT'] at habsent'
      intro heq
      refine (h.fresh p i hT hp habsent).2.1 ?_
      rw [← (h.fresh_trans h' hT hp habsent).1, heq]
      exact (h'.fresh q j (hj.resolve_left hT') hq habsent').1
    by_cases hTi : i :: p ∈ T <;> by_cases hTj : j :: q ∈ T
    · rw [(h.fresh_trans h' hTi hp habsent).1, (h.fresh_trans h' hTj hq habsent').1]
      exact h.distinct p i q j hTi hTj hp hq habsent habsent' hne
    · exact hcross hTi hj hTj hp hq habsent habsent'
    · exact (hcross hTj hi hTi hq hp habsent' habsent).symm
    · rw [← h.other p i hTi] at habsent
      rw [← h.other q j hTj] at habsent'
      exact h'.distinct p i q j (hi.resolve_left hTi) (hj.resolve_left hTj) hp hq habsent habsent' hne

end SetsUpEntries

end MikanOS
