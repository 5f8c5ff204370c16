import MikanOS.Paging.SetupPageMaps

/-! # The frames for one page

`SetupPageMaps` of a page that is missing takes a frame for each level from the first absent entry
down. It gives none back where they do not suffice. -/

namespace MikanOS

open PageMapEntry LinearAddress4Level Memory Store

variable {M T n level : Nat} {p : List (Fin 512)} {i : Fin 512} {m m' : Machine}
  {o : Nat → Option Place} {addr : LinearAddress4Level}

namespace BitmapMemoryManager

/-- The frames that `Allocate` can still give. -/
def freeFrames (memoryManager : BitmapMemoryManager) : Finset Nat :=
  (Finset.Ico memoryManager.rangeBegin memoryManager.rangeEnd).filter fun f =>
    memoryManager.getBit f = false

variable {memoryManager : BitmapMemoryManager} {f : Nat}

theorem mem_freeFrames : f ∈ memoryManager.freeFrames ↔
    (memoryManager.rangeBegin ≤ f ∧ f < memoryManager.rangeEnd) ∧ memoryManager.getBit f = false := by
  rw [freeFrames, Finset.mem_filter, Finset.mem_Ico]

theorem notMem_freeFrames (h : memoryManager.getBit f = true) : f ∉ memoryManager.freeFrames := by
  intro hf
  rw [(mem_freeFrames.mp hf).2] at h
  cases h

theorem freeFrames_markAllocated (memoryManager : BitmapMemoryManager) (c : Nat) :
    (memoryManager.markAllocated c 1).freeFrames = memoryManager.freeFrames.erase c := by
  ext f
  rw [Finset.mem_erase, mem_freeFrames, mem_freeFrames, getBit_markAllocated_one,
    markAllocated_rangeBegin, markAllocated_rangeEnd]
  by_cases hf : f = c
  · simp [hf]
  · simp [hf]

end BitmapMemoryManager

/-- The frames that the machine can still allocate. -/
abbrev Machine.freeFrames (m : Machine) : Finset Nat := m.memoryManager.freeFrames

/-- The levels from the first absent entry on the way of an address down, its page among them. -/
def missing (mem : Memory) (addr : LinearAddress4Level) : (level table : Nat) → Nat
  | 0, _ => 0
  | level + 1, table =>
    if (mem table (addr.part (level + 1))).present then
      missing mem addr level (mem table (addr.part (level + 1))).pointer
    else level + 1

/-- `NewPageMap` takes one of the free frames. -/
theorem newPageMap_free (m : Machine) :
    (∃ c m', m.newPageMap = (⟨c, .kSuccess⟩, m') ∧ c ∈ m.freeFrames ∧ c < m.memoryManager.rangeEnd ∧
      m'.mem = m.mem.setPage c (fun _ => 0) ∧ m'.memoryManager = m.memoryManager.markAllocated c 1 ∧
      m'.freeFrames = m.freeFrames.erase c ∧ m'.cr3 = m.cr3) ∨
    (m.freeFrames = ∅ ∧ m.newPageMap = (⟨0, .kNoEnoughMemory⟩, m)) := by
  rcases newPageMap_spec m with ⟨c, m', hnew, hc, hlo, hhi, hmem, hmgr, hcr3, -⟩ | ⟨hnew, hfull⟩
  · have hfree := BitmapMemoryManager.mem_freeFrames.mpr ⟨⟨hlo, hhi⟩, hc⟩
    refine .inl ⟨c, m', hnew, hfree, hhi, hmem, hmgr, ?_, hcr3⟩
    rw [Machine.freeFrames, hmgr, BitmapMemoryManager.freeFrames_markAllocated]
  · refine .inr ⟨Finset.eq_empty_iff_forall_notMem.mpr fun f hf => ?_, hnew⟩
    obtain ⟨⟨hlo, hhi⟩, hfree⟩ := BitmapMemoryManager.mem_freeFrames.mp hf
    rw [hfull f hlo hhi] at hfree
    cases hfree

/-- What filling an absent entry does. -/
theorem setNewPageMap_absent (habsent : (m.mem n i).present = false) (hn : n ∉ m.freeFrames)
    (hend : m.memoryManager.rangeEnd ≤ 2 ^ 40) :
    (∃ c m₁ e, m.setNewPageMapIfNotPresent n i = (⟨c, .kSuccess⟩, m₁) ∧ c ∈ m.freeFrames ∧
      (m₁.setFlags n i).mem = (m.mem.setPage c fun _ => 0).setEntry n i e ∧
      (e.present = true ∧ e.user = true ∧ e.writable = true ∧ e.pointer = c ∧
        e.hugePage = (m.mem n i).hugePage) ∧
      (m₁.setFlags n i).memoryManager = m.memoryManager.markAllocated c 1 ∧
      (m₁.setFlags n i).freeFrames = m.freeFrames.erase c ∧ (m₁.setFlags n i).cr3 = m.cr3) ∨
    (m.freeFrames = ∅ ∧ m.setNewPageMapIfNotPresent n i = (⟨0, .kNoEnoughMemory⟩, m)) := by
  rw [Machine.setNewPageMapIfNotPresent]
  rcases newPageMap_free m with ⟨c, m₁, hnew, hc, hcend, hmem₁, hmgr₁, hfree₁, hcr3₁⟩ | ⟨hfree, hnew⟩
  · have hnc : n ≠ c := by
      rintro rfl
      exact hn hc
    have hentry : m₁.mem n i = m.mem n i := by rw [hmem₁, setPage_of_ne _ hnc]
    simp only [habsent, Bool.false_eq_true, if_false, hnew, if_true]
    refine .inl ⟨c, _, ((((m.mem n i).setPointer c).setPresent true).setUser true).setWritable true, rfl, hc,
      ?_, ⟨?_, ?_, ?_, ?_, ?_⟩, hmgr₁, hfree₁, hcr3₁⟩
    · simp only [Machine.setFlags, Machine.setEntry, setEntry_self, setEntry_setEntry, hentry, hmem₁]
    · simp
    · simp
    · simp
    · simp [pointer_setPointer (hcend.trans_le hend)]
    · simp
  · simp only [habsent, Bool.false_eq_true, if_false, hnew]
    exact .inr ⟨hfree, rfl⟩

/-! ## One page -/

/-- One turn of `SetupPageMap` above the page tables. -/
theorem setupPageMap_one_succ {c : Nat} {m₁ m₂ : Machine} {rest : WithError Nat}
    (hlink : m.setNewPageMapIfNotPresent n (addr.part (level + 2)) = (⟨c, .kSuccess⟩, m₁))
    (hrest : Machine.setupPageMap true (level + 1) c addr 1 (m₁.setFlags n (addr.part (level + 2))) =
      (rest, m₂)) (hzero : rest.error = .kSuccess → rest.value = 0) :
    Machine.setupPageMap true (level + 2) n addr 1 m =
      (if rest.error = .kSuccess then ⟨0, .kSuccess⟩ else ⟨1, rest.error⟩, m₂) := by
  have hfold (i : Fin 512) : (m₁.setEntry n i ((m₁.mem n i).setUser true)).setEntry n i
      (((m₁.setEntry n i ((m₁.mem n i).setUser true)).mem n i).setWritable true) =
        m₁.setFlags n i := rfl
  rw [Machine.setupPageMap, Machine.setupLoop, if_neg Nat.one_ne_zero]
  simp only [hlink, if_true, show ¬ level + 1 + 1 = 1 by omega, if_false, hfold, hrest]
  obtain ⟨value, err⟩ := rest
  by_cases hok : err = .kSuccess
  · subst hok
    obtain rfl : value = 0 := hzero rfl
    simp only [if_true, setupLoop_zero, ite_self]
  · simp only [hok, if_false]

theorem success_ite (rest : WithError Nat) :
    (if rest.error = .kSuccess then (⟨0, .kSuccess⟩ : WithError Nat) else ⟨1, rest.error⟩).error =
      .kSuccess ↔ rest.error = .kSuccess := by
  split
  · exact iff_of_true rfl ‹_›
  · exact Iff.rfl

theorem setupPageMap_one_fail {err : Error} (hlink :
    m.setNewPageMapIfNotPresent n (addr.part (level + 1)) = (⟨0, err⟩, m)) (herr : err ≠ .kSuccess) :
    Machine.setupPageMap true (level + 1) n addr 1 m = (⟨1, err⟩, m) := by
  rw [Machine.setupPageMap, Machine.setupLoop, if_neg Nat.one_ne_zero]
  simp only [hlink, if_neg herr]

/-- On the last level the entry is all there is to set up. -/
theorem setupPageMap_one_leaf {c : Nat} {m₁ : Machine}
    (hlink : m.setNewPageMapIfNotPresent n (addr.part 1) = (⟨c, .kSuccess⟩, m₁)) :
    Machine.setupPageMap true 1 n addr 1 m = (⟨0, .kSuccess⟩, m₁.setFlags n (addr.part 1)) := by
  rw [Machine.setupPageMap, Machine.setupLoop, if_neg Nat.one_ne_zero]
  simp only [Nat.zero_add, hlink, if_true, Nat.sub_self, setupLoop_zero, ite_self]
  rfl

/-- What setting up a page below an absent entry does. -/
structure Fills (level n : Nat) (addr : LinearAddress4Level) (m : Machine)
    (r : WithError Nat × Machine) : Prop where
  value : r.1.error = .kSuccess → r.1.value = 0
  success : r.1.error = .kSuccess ↔ level ≤ m.freeFrames.card
  full : m.freeFrames = ∅ → r.2 = m
  entry : m.freeFrames ≠ ∅ → (r.2.mem n (addr.part level)).present = true
  other : ∀ f j, f ∉ m.freeFrames → (f = n → j ≠ addr.part level) → r.2.mem f j = m.mem f j
  mapped : (1 < level → (m.mem n (addr.part level)).hugePage = false) → r.1.error = .kSuccess →
    ∃ c ∈ m.freeFrames, walk r.2.mem addr level n = some ⟨c, true, true⟩
  cr3 : r.2.cr3 = m.cr3

theorem Fills.fail {err : Error} (herr : err ≠ .kSuccess) (hfree : m.freeFrames = ∅) (hlevel : level ≠ 0) :
    Fills level n addr m (⟨1, err⟩, m) where
  value h := absurd h herr
  success := by
    rw [hfree, Finset.card_empty, Nat.le_zero]
    exact ⟨fun h => absurd h herr, fun h => absurd h hlevel⟩
  full _ := rfl
  entry h := absurd hfree h
  other _ _ _ _ := rfl
  mapped _ h := absurd h herr
  cr3 := rfl

theorem setupPageMap_fills (level : Nat) (hn : n ∉ m.freeFrames)
    (habsent : (m.mem n (addr.part (level + 1))).present = false)
    (hend : m.memoryManager.rangeEnd ≤ 2 ^ 40) :
    Fills (level + 1) n addr m (Machine.setupPageMap true (level + 1) n addr 1 m) := by
  induction level generalizing m n with
  | zero =>
    rcases setNewPageMap_absent habsent hn hend with
      ⟨c, m₁, e, hlink, hc, hmem, ⟨hpres, huser, hwr, hptr, -⟩, -, -, hcr3⟩ | ⟨hfree, hlink⟩
    · have hne {f : Nat} (hf : f ∉ m.freeFrames) : f ≠ c := by
        rintro rfl
        exact hf hc
      rw [setupPageMap_one_leaf hlink]
      simp only [Nat.zero_add] at hmem hcr3 ⊢
      refine ⟨fun _ => rfl, ⟨fun _ => Finset.card_pos.mpr ⟨c, hc⟩, fun _ => rfl⟩, fun h => ?_, fun _ => ?_,
        fun f j hf hj => ?_, fun _ _ => ⟨c, hc, ?_⟩, hcr3⟩
      · exact absurd hc (Finset.eq_empty_iff_forall_notMem.mp h c)
      · simp only [hmem, setEntry_self, hpres]
      · simp only [hmem]
        rw [setEntry_apply, if_neg fun h => hj h.1 h.2, setPage_of_ne _ (hne hf)]
      · simp only [hmem]
        rw [walk_succ]
        simp [setEntry_self, hpres, huser, hwr, hptr, walk]
    · rw [setupPageMap_one_fail hlink (by decide)]
      exact .fail (by decide) hfree (by omega)
  | succ level ih =>
    rcases setNewPageMap_absent habsent hn hend with
      ⟨c, m₁, e, hlink, hc, hmem, ⟨hpres, huser, hwr, hptr, hhuge⟩, hmgr, hfree, hcr3⟩ | ⟨hfree, hlink⟩
    · have hne {f : Nat} (hf : f ∉ m.freeFrames) : f ≠ c := by
        rintro rfl
        exact hf hc
      generalize hm₂ : m₁.setFlags n (addr.part (level + 1 + 1)) = m₂ at hmem hmgr hfree hcr3
      have hkeep {f : Nat} (hf : f ∉ m.freeFrames) : f ∉ m₂.freeFrames := by
        rw [hfree]
        exact fun h => hf (Finset.mem_of_mem_erase h)
      have hempty (j : Fin 512) : m₂.mem c j = 0 := by
        rw [hmem, setEntry_of_ne _ (hne hn).symm, setPage_self]
      have hc₂ : c ∉ m₂.freeFrames := by
        rw [hfree]
        exact Finset.notMem_erase c m.freeFrames
      have F : Fills (level + 1) c addr m₂ (Machine.setupPageMap true (level + 1) c addr 1 m₂) :=
        ih hc₂ (by rw [hempty, present_zero])
          (by rw [hmgr, BitmapMemoryManager.markAllocated_rangeEnd]; exact hend)
      generalize hrest : Machine.setupPageMap true (level + 1) c addr 1 m₂ = r at F
      obtain ⟨rest, m₃⟩ := r
      rw [setupPageMap_one_succ hlink (by rw [hm₂]; exact hrest) F.value]
      have hentry : m₃.mem n (addr.part (level + 2)) = e := by
        rw [F.other n _ (hkeep hn) fun h => absurd h (hne hn), hmem, setEntry_self]
      have hiff := success_ite rest
      refine ⟨fun h => ?_, ?_, fun h => ?_, fun _ => ?_, fun f j hf hj => ?_, fun hhuge' hok => ?_,
        F.cr3.trans hcr3⟩
      · rw [if_pos (hiff.mp h)]
      · have hcard : m₂.freeFrames.card + 1 = m.freeFrames.card := by
          rw [hfree]
          exact Finset.card_erase_add_one hc
        rw [hiff, F.success]
        omega
      · exact absurd hc (Finset.eq_empty_iff_forall_notMem.mp h c)
      · simp only
        rw [hentry, hpres]
      · simp only
        rw [F.other f j (hkeep hf) fun h => absurd h (hne hf), hmem, setEntry_apply,
          if_neg fun h => hj h.1 h.2, setPage_of_ne _ (hne hf)]
      · obtain ⟨c', hc', hwalk⟩ := F.mapped (fun _ => by rw [hempty, hugePage_zero]) (hiff.mp hok)
        rw [hfree] at hc'
        refine ⟨c', Finset.mem_of_mem_erase hc', ?_⟩
        simp only at hwalk ⊢
        rw [walk_succ, hentry, if_pos hpres, if_neg, hptr, hwalk]
        · simp [huser, hwr]
        · rw [hhuge, hhuge' (by omega)]
          simp
    · rw [setupPageMap_one_fail hlink (by decide)]
      exact .fail (by decide) hfree (by omega)

/-- What setting up a page does that is missing in the tree of `T`. Of the frames in use it touches the
tables of the tree only, and of those the levels from the given one down. -/
structure Supplies (T level n : Nat) (addr : LinearAddress4Level) (m : Machine)
    (o : Nat → Option Place) (r : WithError Nat × Machine) : Prop where
  value : r.1.error = .kSuccess → r.1.value = 0
  success : r.1.error = .kSuccess ↔ missing m.mem addr level n ≤ m.freeFrames.card
  unchanged : r.2 = m ↔ m.freeFrames = ∅
  other : ∀ f j, f ∉ m.freeFrames → (∀ q, o f = some (T, q) → Tracked q j → q.length + level < 4) →
    r.2.mem f j = m.mem f j
  mapped : r.1.error = .kSuccess → ∃ c ∈ m.freeFrames, walk r.2.mem addr level n = some ⟨c, true, true⟩
  cr3 : r.2.cr3 = m.cr3

theorem Store.WellOwned.notMem_freeFrames {f : Nat} {place : Place} (H : WellOwned M (m.store o))
    (hf : o f = some place) : f ∉ m.freeFrames := by
  refine BitmapMemoryManager.notMem_freeFrames (H.allocated f fun hnone => ?_)
  rw [show o f = none from hnone] at hf
  cases hf

theorem Fills.supplies {r : WithError Nat × Machine} (F : Fills (level + 1) n addr m r)
    (H : WellOwned M (m.store o)) (hn : o n = some (T, p)) (hp : p.length + (level + 1) = 4)
    (ht : p = [] → 256 ≤ (addr.part 4).val)
    (habsent : (m.mem n (addr.part (level + 1))).present = false) :
    Supplies T (level + 1) n addr m o r where
  value := F.value
  success := by
    rw [missing, habsent, if_neg Bool.false_ne_true]
    exact F.success
  unchanged := by
    refine ⟨fun h => ?_, F.full⟩
    by_contra hfree
    have hentry := F.entry hfree
    rw [h, habsent] at hentry
    cases hentry
  other := by
    intro f j hf hlevel
    refine F.other f j hf ?_
    rintro rfl rfl
    exact absurd (hlevel p hn (.of_level hp ht)) (by omega)
  mapped := by
    refine F.mapped fun hlevel => ?_
    exact (H.table n T p _ hn (by omega) (.of_level hp ht)).1
  cr3 := F.cr3

/-- A page that is missing in a tree is set up if there are as many frames as levels are missing. -/
theorem setupPageMap_supplies (level : Nat) (H : WellOwned M (m.store o)) (hn : o n = some (T, p))
    (hp : p.length + (level + 1) = 4) (ht : p = [] → 256 ≤ (addr.part 4).val)
    (hend : m.memoryManager.rangeEnd ≤ 2 ^ 40) (hw : walk m.mem addr (level + 1) n = none) :
    Supplies T (level + 1) n addr m o (Machine.setupPageMap true (level + 1) n addr 1 m) := by
  induction level generalizing n p with
  | zero =>
    have habsent : (m.mem n (addr.part (0 + 1))).present = false := by
      rw [← Option.not_isSome_iff_eq_none, isSome_walk_one] at hw
      exact Bool.eq_false_of_not_eq_true hw
    exact (setupPageMap_fills 0 (H.notMem_freeFrames hn) habsent hend).supplies H hn hp ht habsent
  | succ level ih =>
    by_cases hpres : (m.mem n (addr.part (level + 2))).present = true
    · -- a present entry is left as it is, and the next level is set up
      have htr : Tracked p (addr.part (level + 2)) := .of_level hp ht
      obtain ⟨hhuge, hflags⟩ := H.table n T p _ hn (by omega) htr
      obtain ⟨huser, hwritable⟩ := hflags hpres
      have hlink : m.setNewPageMapIfNotPresent n (addr.part (level + 2)) =
          (⟨(m.mem n (addr.part (level + 2))).pointer, .kSuccess⟩, m) := if_pos hpres
      have hsame : m.setFlags n (addr.part (level + 2)) = m := by
        simp only [Machine.setFlags, Machine.setEntry, setEntry_self, setEntry_setEntry]
        rw [setUser_of_user huser, setWritable_of_writable hwritable, setEntry_eq_self _ rfl]
      have hmissing : missing m.mem addr (level + 2) n =
          missing m.mem addr (level + 1) (m.mem n (addr.part (level + 2))).pointer := by
        rw [missing, if_pos hpres]
      have hchild := H.child hn (by omega) htr hpres
      have hbelow : walk m.mem addr (level + 1) (m.mem n (addr.part (level + 2))).pointer = none := by
        rw [H.walk_succ hn hp, if_pos hpres, Option.map_eq_none_iff] at hw
        exact hw
      have S := ih hchild (by simp only [List.length_cons]; omega) (fun h => by cases h) hbelow
      generalize hrest : Machine.setupPageMap true (level + 1)
        (m.mem n (addr.part (level + 2))).pointer addr 1 m = r at S
      obtain ⟨rest, m₂⟩ := r
      rw [setupPageMap_one_succ hlink (by rw [hsame]; exact hrest) S.value]
      have hiff := success_ite rest
      refine ⟨fun h => ?_, ?_, S.unchanged, fun f j hf hlevel => ?_, fun hok => ?_, S.cr3⟩
      · rw [if_pos (hiff.mp h)]
      · rw [hiff, hmissing]
        exact S.success
      · refine S.other f j hf fun q hq htr' => ?_
        have := hlevel q hq htr'
        omega
      · obtain ⟨c, hc, hwalk⟩ := S.mapped (hiff.mp hok)
        have hentry : m₂.mem n (addr.part (level + 2)) = m.mem n (addr.part (level + 2)) := by
          refine S.other n _ (H.notMem_freeFrames hn) fun q hq _ => ?_
          obtain ⟨-, rfl⟩ := Prod.mk.inj (Option.some.inj (hn.symm.trans hq))
          omega
        refine ⟨c, hc, ?_⟩
        simp only at hwalk ⊢
        rw [walk_succ, hentry, if_pos hpres, hhuge, if_neg (by simp), hwalk]
        simp [huser, hwritable]
    · have habsent := Bool.eq_false_of_not_eq_true hpres
      exact (setupPageMap_fills _ (H.notMem_freeFrames hn) habsent hend).supplies H hn hp ht habsent

end MikanOS
