import MikanOS.Paging.CopyPageMaps

/-! # Taking frames

What sets up page maps takes frames and gives none back, whatever the tables hold. -/

namespace MikanOS

/-- The frames that are allocated in `m` are allocated in `m'`. -/
def Takes (m m' : Machine) : Prop :=
  ∀ f, m.memoryManager.getBit f = true → m'.memoryManager.getBit f = true

instance : Std.Refl Takes := ⟨fun _ _ h => h⟩

instance : IsTrans Machine Takes := ⟨fun _ _ _ h h' f hf => h' f (h f hf)⟩

namespace Takes

variable {m m' m'' : Machine}

theorem refl (m : Machine) : Takes m m := Std.Refl.refl m

theorem trans (h : Takes m m') (h' : Takes m' m'') : Takes m m'' := IsTrans.trans _ _ _ h h'

theorem newPageMap (m : Machine) : Takes m m.newPageMap.2 := by
  rcases newPageMap_spec m with ⟨c, m', hnew, -, -, -, -, hmgr, -⟩ | ⟨hnew, -⟩
  · rw [hnew]
    intro f hf
    simp only [hmgr, BitmapMemoryManager.getBit_markAllocated, hf, Bool.or_true]
  · rw [hnew]
    exact .refl m

theorem setNewPageMapIfNotPresent (m : Machine) (table : Nat) (i : Fin 512) :
    Takes m (m.setNewPageMapIfNotPresent table i).2 := by
  have hnew := newPageMap m
  rw [Machine.setNewPageMapIfNotPresent]
  dsimp only
  split
  · exact .refl m
  · split
    · exact hnew
    · exact hnew

/-- The loop over the entries of one table. -/
theorem setupLoop {setupChild : Nat → LinearAddress4Level → Nat → Machine → WithError Nat × Machine}
    (hchild : ∀ table addr num4kpages m, Takes m (setupChild table addr num4kpages m).2)
    (pageMap pageMapLevel : Nat) (writable : Bool) (turns : Nat) (addr : LinearAddress4Level)
    (num4kpages : Nat) (m : Machine) :
    Takes m (Machine.setupLoop setupChild pageMap pageMapLevel writable turns addr num4kpages m).2 := by
  induction turns generalizing addr num4kpages m with
  | zero => exact .refl m
  | succ turns ih =>
    have hset := setNewPageMapIfNotPresent m pageMap (addr.part pageMapLevel)
    rw [Machine.setupLoop]
    dsimp only
    generalize m.setNewPageMapIfNotPresent pageMap (addr.part pageMapLevel) = linked at hset ⊢
    obtain ⟨childMap, m₁⟩ := linked
    dsimp only at hset ⊢
    split
    · exact .refl m
    · split
      · -- at level 1 the turn is done, above it the next level is set up
        split
        · rw [if_pos rfl]
          split
          · exact hset
          · exact fun f hf => ih _ _ _ f (hset f hf)
        · generalize hchildMap : setupChild childMap.value addr num4kpages _ = turn
          have hturn : Takes m turn.2 := by
            rw [← hchildMap]
            exact fun f hf => hchild _ _ _ _ f (hset f hf)
          split
          · split
            · exact hturn
            · exact hturn.trans (ih _ _ _)
          · exact hturn
      · exact hset

theorem setupPageMap (writable : Bool) (level pageMap : Nat) (addr : LinearAddress4Level)
    (num4kpages : Nat) (m : Machine) :
    Takes m (Machine.setupPageMap writable level pageMap addr num4kpages m).2 := by
  induction level generalizing pageMap addr num4kpages m with
  | zero => exact .refl m
  | succ level ih => exact setupLoop ih _ _ _ _ _ _ _

theorem setupPageMaps (m : Machine) (addr : LinearAddress4Level) (num4kpages : Nat) (writable : Bool) :
    Takes m (m.setupPageMaps addr num4kpages writable).2 :=
  setupPageMap writable 4 m.cr3 addr num4kpages m

theorem forEntries {body : Fin 512 → Machine → Error × Machine}
    (hbody : ∀ i m, Takes m (body i m).2) (is : List (Fin 512)) (m : Machine) :
    Takes m (forEntries body is m).2 := by
  induction is generalizing m with
  | nil => exact .refl m
  | cons i is ih =>
    rw [forEntries_cons]
    split
    · exact (hbody i m).trans (ih _)
    · exact hbody i m

theorem copyPageMaps (part dest src start : Nat) (m : Machine) :
    Takes m (Machine.copyPageMaps part dest src start m).2 := by
  induction part using Nat.twoStepInduction generalizing dest src start m with
  | zero => exact .refl m
  | one =>
    refine forEntries (fun i m => ?_) _ m
    rw [Machine.copyLeaf]
    split
    · exact .refl m
    · exact .refl m
  | more part _ ih =>
    refine forEntries (fun i m => ?_) _ m
    have hnew := newPageMap m
    rw [Machine.copyTable]
    split
    · generalize m.newPageMap = new at hnew ⊢
      obtain ⟨table, m₁⟩ := new
      dsimp only at hnew ⊢
      split
      · exact fun f hf => ih _ _ _ _ f (hnew f hf)
      · exact hnew
    · exact .refl m

theorem setPageContent (addr : LinearAddress4Level) (content part table : Nat) (m : Machine) :
    Takes m (Machine.setPageContent addr content part table m) := by
  induction part using Nat.twoStepInduction generalizing table with
  | zero => exact .refl m
  | one => exact .refl m
  | more part _ ih => exact ih _

theorem writePage (m : Machine) (addr : LinearAddress4Level) (bytes : List UInt8) :
    Takes m (m.writePage addr bytes) := by
  rw [Machine.writePage]
  split
  · exact .refl m
  · exact .refl m

theorem copyOnePage (m : Machine) (causalAddr : LinearAddress4Level) :
    Takes m (m.copyOnePage causalAddr).2 := by
  have hnew := newPageMap m
  rw [Machine.copyOnePage]
  generalize m.newPageMap = new at hnew ⊢
  obtain ⟨p, m₁⟩ := new
  dsimp only at hnew ⊢
  split
  · exact fun f hf => setPageContent _ _ _ _ _ f (hnew f hf)
  · exact hnew

theorem preparePageCache (m : Machine) (fd : FileLoad) (map : FileMapping)
    (causalVaddr : LinearAddress4Level) : Takes m (m.preparePageCache fd map causalVaddr).2 := by
  have hsetup := setupPageMaps m { causalVaddr with offset := 0 } 1 true
  rw [Machine.preparePageCache]
  dsimp only
  generalize m.setupPageMaps { causalVaddr with offset := 0 } 1 true = set at hsetup ⊢
  obtain ⟨err, m₁⟩ := set
  dsimp only at hsetup ⊢
  split
  · exact hsetup.trans (writePage _ _ _)
  · exact hsetup

theorem handlePageFault (m : Machine) (task : PagingTask) (errorCode : Nat)
    (causalAddr : LinearAddress4Level) :
    Takes m (m.handlePageFault task errorCode causalAddr).2 := by
  rw [Machine.handlePageFault]
  split
  · exact copyOnePage m causalAddr
  · split
    · exact .refl m
    · split
      · exact setupPageMaps m causalAddr 1 true
      · split
        · exact preparePageCache _ _ _ _
        · exact .refl m

theorem setupPML4 (m : Machine) : Takes m m.setupPML4.2 := by
  have hnew := newPageMap m
  rw [Machine.setupPML4]
  generalize m.newPageMap = new at hnew ⊢
  obtain ⟨pml4, m₁⟩ := new
  dsimp only at hnew ⊢
  split
  · exact hnew
  · exact hnew

end Takes

/-- Where `SetupPML4` succeeds, it has taken a frame that was free. -/
theorem setupPML4_takes (m : Machine) :
    (m.setupPML4.1.error = .kSuccess ∧ ∃ f, m.memoryManager.getBit f = false ∧
      m.setupPML4.2.memoryManager.getBit f = true ∧ m.memoryManager.rangeBegin ≤ f ∧
      f < m.memoryManager.rangeEnd) ∨
    (m.setupPML4 = (⟨0, .kNoEnoughMemory⟩, m) ∧
      ∀ f, m.memoryManager.rangeBegin ≤ f → f < m.memoryManager.rangeEnd →
        m.memoryManager.getBit f = true) := by
  rw [Machine.setupPML4]
  rcases newPageMap_spec m with ⟨c, m', hnew, hfree, hlo, hhi, -, hmgr, -⟩ | ⟨hnew, hfull⟩
  · refine .inl ⟨?_, c, hfree, ?_, hlo, hhi⟩
    · rw [hnew]
      rfl
    · rw [hnew]
      simp only [if_true, Machine.setPage, hmgr, getBit_markAllocated_one, Function.update_self]
  · refine .inr ⟨?_, hfull⟩
    rw [hnew]
    rfl

end MikanOS
