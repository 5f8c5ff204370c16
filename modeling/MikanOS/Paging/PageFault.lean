import MikanOS.Paging.ExecuteFile
import MikanOS.Paging.IdentityMap

/-! # The page fault handler

An access that faults should end in an error without a trace, or be possible after `HandlePageFault`;
the kernel's memory is not to be touched. -/

namespace MikanOS

open PageMapEntry LinearAddress4Level Memory Store

variable {M T pdpTable n level c : Nat} {m m' : Machine} {o o' : Nat → Option Place}
  {addr page : LinearAddress4Level} {rw : Bool} {task : PagingTask} {err : Error} {bytes : List UInt8}
  {pageDirectory : Fin kPageDirectoryCount → Nat}

/-- The handler has a page for the address: one on demand, or one of a file. -/
def Expected (task : PagingTask) (addr : LinearAddress4Level) : Prop :=
  (task.dpagingBegin ≤ addr.value ∧ addr.value < task.dpagingEnd) ∨
    (Machine.findFileMapping task.fileMaps addr.value).isSome

/-- What the handler may write in the address space `T`: the frames that it takes, and what belongs to
the upper half. -/
def MayWrite (T : Nat) (m : Machine) (o : Nat → Option Place) (f : Nat) (j : Fin 512) : Prop :=
  f ∈ m.freeFrames ∨ ∃ q, o f = some (T, q) ∧ Tracked q j

/-- The access is refused without a trace, or it does not fault any more. -/
structure Settled (T : Nat) (m : Machine) (o : Nat → Option Place) (addr : LinearAddress4Level)
    (rw : Bool) (r : Error × Machine) : Prop where
  outcome : r.1 ≠ .kSuccess ∧ r.2 = m ∨ r.1 = .kSuccess ∧ ∃ f, r.2.userAccess addr rw = .ok f
  kernel : ∀ f j, ¬MayWrite T m o f j → r.2.mem f j = m.mem f j

theorem Settled.refused (herr : err ≠ .kSuccess) : Settled T m o addr rw (err, m) :=
  ⟨.inl ⟨herr, rfl⟩, fun _ _ _ => rfl⟩

/-- The faults that the handler is up to. No store is to a page of the identity map, no page on demand
or of a file is in the lower half, and for a page that is missing there are the frames for all the tables
that are missing too. Otherwise the handler does nothing only where no frame is free at all. -/
structure Machine.Handles (m : Machine) (task : PagingTask) (addr : LinearAddress4Level) (rw : Bool) :
    Prop where
  identity : (addr.part 4).val < 256 → m.translate addr ≠ none → rw = false ∨ m.freeFrames = ∅
  lower : (addr.part 4).val < 256 → m.translate addr = none → Expected task addr →
    (m.mem m.cr3 (addr.part 4)).present = false ∧ m.freeFrames = ∅
  upper : 256 ≤ (addr.part 4).val → m.translate addr = none → Expected task addr →
    m.freeFrames = ∅ ∨ missing m.mem addr 4 m.cr3 ≤ m.freeFrames.card

/-! ## The cases of the handler -/

theorem handlePageFault_present (m : Machine) (task : PagingTask) (addr : LinearAddress4Level) (rw : Bool) :
    m.handlePageFault task (pageFaultCode true rw true) addr =
      if rw then m.copyOnePage addr else (.kAlreadyAllocated, m) := by
  cases rw with
  | false => rfl
  | true => rfl

theorem handlePageFault_unexpected (hnot : ¬Expected task addr) (m : Machine) (rw : Bool) :
    m.handlePageFault task (pageFaultCode false rw true) addr = (.kIndexOutOfRange, m) := by
  have hbit : (pageFaultCode false rw true).testBit 0 = false := by cases rw <;> rfl
  simp only [Expected, not_or, Option.not_isSome_iff_eq_none] at hnot
  simp only [Machine.handlePageFault, hbit, Bool.false_and, Bool.false_eq_true, if_false, if_neg hnot.1,
    hnot.2]

/-- The page is set up, and written to where it is one of a file. -/
def Machine.bringPage (m : Machine) (page : LinearAddress4Level) (bytes : List UInt8) : Error × Machine :=
  let (err, m) := m.setupPageMaps page 1 true
  if err = .kSuccess then (.kSuccess, m.writePage page bytes) else (err, m)

theorem writePage_nil (m : Machine) (page : LinearAddress4Level) : m.writePage page [] = m := by
  rw [Machine.writePage]
  split
  · rfl
  · rfl

theorem handlePageFault_expected (hexp : Expected task addr) (m : Machine) (rw : Bool) :
    ∃ page bytes, (∀ level, page.part level = addr.part level) ∧
      m.handlePageFault task (pageFaultCode false rw true) addr = m.bringPage page bytes := by
  have hbit : (pageFaultCode false rw true).testBit 0 = false := by cases rw <;> rfl
  simp only [Machine.handlePageFault, hbit, Bool.false_and, Bool.false_eq_true, if_false]
  by_cases hdemand : task.dpagingBegin ≤ addr.value ∧ addr.value < task.dpagingEnd
  · refine ⟨addr, [], fun _ => rfl, ?_⟩
    rw [if_pos hdemand, Machine.bringPage]
    generalize m.setupPageMaps addr 1 true = set
    obtain ⟨err, m₁⟩ := set
    simp only [writePage_nil]
    split
    · rename_i hok
      rw [hok]
    · rfl
  · obtain ⟨g, hg⟩ := Option.isSome_iff_exists.mp (hexp.resolve_left hdemand)
    refine ⟨{ addr with offset := 0 }, (task.files g.fd).load 4096
      ((({ addr with offset := 0 } : LinearAddress4Level).value + 2 ^ 64 - g.vaddrBegin) % 2 ^ 64),
      part_offset addr 0, ?_⟩
    rw [if_neg hdemand, hg]
    rfl

/-! ## The lower half -/

theorem IdentityMap.user_pml4 (I : IdentityMap m o T pdpTable pageDirectory) {i : Fin 512}
    (hi : i.val < 256) : (m.mem T i).user = false := by
  rw [I.pml4 i hi]
  split
  · exact user_identityTable pdpTable
  · rfl

/-- What the PML4 does not give to the user, no user can reach. -/
theorem userAccess_ne_ok (h : (m.mem m.cr3 (addr.part 4)).user = false) (rw : Bool) (f : Nat) :
    m.userAccess addr rw ≠ .ok f := by
  have huser (t : Translation) (ht : walk m.mem addr 4 m.cr3 = some t) : t.user = false := by
    rw [walk_succ, if_neg (c := _ ∧ _) (by simp)] at ht
    split at ht
    · obtain ⟨t', -, rfl⟩ := Option.map_eq_some_iff.mp ht
      simp only [h, Bool.false_and]
    · cases ht
  rw [Machine.userAccess, Machine.translate]
  intro hok
  split at hok
  · split at hok
    · cases hok
    · rename_i t ht
      rw [huser t ht] at hok
      cases hok
  · cases hok

/-- Where the identity map ends. -/
theorem IdentityMap.absent_cases (I : IdentityMap m o T pdpTable pageDirectory)
    (haddr : (addr.part 4).val < 256) (hw : walk m.mem addr 4 T = none) :
    (m.mem T (addr.part 4)).present = false ∨
      m.mem T (addr.part 4) = identityTable pdpTable ∧ m.mem pdpTable (addr.part 3) = 0 := by
  have hpml4 := I.pml4 _ haddr
  split at hpml4
  · refine .inr ⟨hpml4, ?_⟩
    have hpdp := I.pdp (addr.part 3)
    split at hpdp
    · -- the entry of a page directory, all of whose pages are present
      rename_i hlt
      obtain ⟨-, -, hpdpLt⟩ := I.static pdpTable (.inl rfl)
      obtain ⟨-, -, hdirLt⟩ := I.static (pageDirectory ⟨_, hlt⟩) (.inr ⟨_, rfl⟩)
      rw [walk_succ, hpml4, present_identityTable, if_pos rfl, hugePage_identityTable, if_neg (by simp),
        pointer_identityTable hpdpLt, Option.map_eq_none_iff, walk_succ, hpdp, present_identityTable,
        if_pos rfl, hugePage_identityTable, if_neg (by simp), pointer_identityTable hdirLt,
        Option.map_eq_none_iff, walk_succ, I.directory, present_identityPage, if_pos rfl,
        hugePage_identityPage, if_pos ⟨rfl, .inl rfl⟩] at hw
      cases hw
    · exact hpdp
  · rw [hpml4]
    exact .inl rfl

/-- `SetPageContent` grants nothing to the user. -/
theorem setPageContent_user (addr : LinearAddress4Level) (content part table : Nat) (m : Machine) (f : Nat)
    (j : Fin 512) :
    ((Machine.setPageContent addr content part table m).mem f j).user = (m.mem f j).user := by
  induction part using Nat.twoStepInduction generalizing table with
  | zero => rfl
  | one =>
    simp only [Machine.setPageContent, Machine.setEntry_mem, setEntry_self, setEntry_apply]
    split
    · rename_i h
      obtain ⟨rfl, rfl⟩ := h
      simp
    · rfl
  | more part _ ih => exact ih _

theorem setPageContent_cr3 (addr : LinearAddress4Level) (content part table : Nat) (m : Machine) :
    (Machine.setPageContent addr content part table m).cr3 = m.cr3 := by
  induction part using Nat.twoStepInduction generalizing table with
  | zero => rfl
  | one => rfl
  | more part _ ih => exact ih _

/-- A store to a page of the identity map: the handler reports success, but the access faults as before. -/
theorem copyOnePage_lower (hpml4 : (m.mem m.cr3 (addr.part 4)).user = false)
    (hroot : m.cr3 ∉ m.freeFrames) :
    (m.freeFrames = ∅ ∧ m.copyOnePage addr = (.kNoEnoughMemory, m)) ∨
      m.freeFrames ≠ ∅ ∧ (m.copyOnePage addr).1 = .kSuccess ∧
        ∀ f, (m.copyOnePage addr).2.userAccess addr true ≠ .ok f := by
  rw [Machine.copyOnePage]
  rcases newPageMap_free m with ⟨c, m₁, hnew, hc, -, hmem₁, -, -, hcr3₁⟩ | ⟨hfree, hnew⟩
  · have hne : m.cr3 ≠ c := by
      rintro rfl
      exact hroot hc
    refine .inr ⟨Finset.ne_empty_of_mem hc, ?_⟩
    rw [hnew]
    refine ⟨rfl, userAccess_ne_ok ?_ true⟩
    simp only [if_true]
    rw [setPageContent_cr3, setPageContent_user]
    simp only [Machine.setPage]
    rw [hmem₁, hcr3₁, setPage_setPage, setPage_of_ne _ hne, hpml4]
  · rw [hnew]
    exact .inl ⟨hfree, rfl⟩

/-- What setting up a page of the lower half does: without frames and without an entry in the PML4,
nothing; otherwise that entry is changed. -/
structure Spoils (T : Nat) (addr : LinearAddress4Level) (m : Machine) (r : Error × Machine) : Prop where
  entry : r.2.mem T (addr.part 4) ≠ m.mem T (addr.part 4)
  mapped : r.1 = .kSuccess → ∃ c ∈ m.freeFrames, walk r.2.mem addr 4 T = some ⟨c, true, true⟩
  cr3 : r.2.cr3 = m.cr3

theorem setupPageMaps_lower (H : WellOwned M (m.store o)) (hroot : o T = some (T, [])) (hcr3 : m.cr3 = T)
    (I : IdentityMap m o T pdpTable pageDirectory) (hend : m.memoryManager.rangeEnd ≤ 2 ^ 40)
    (haddr : (addr.part 4).val < 256) (hw : walk m.mem addr 4 T = none) :
    ((m.mem T (addr.part 4)).present = false ∧ m.freeFrames = ∅ ∧
      (m.setupPageMaps addr 1 true).1 ≠ .kSuccess ∧ (m.setupPageMaps addr 1 true).2 = m) ∨
    (¬((m.mem T (addr.part 4)).present = false ∧ m.freeFrames = ∅) ∧
      Spoils T addr m (m.setupPageMaps addr 1 true)) := by
  have hT := H.notMem_freeFrames hroot
  rw [Machine.setupPageMaps, hcr3]
  rcases I.absent_cases haddr hw with habsent | ⟨hentry, hpdp⟩
  · -- the whole way down is missing
    have F : Fills 4 T addr m (Machine.setupPageMap true 4 T addr 1 m) := setupPageMap_fills 3 hT habsent hend
    by_cases hfree : m.freeFrames = ∅
    · refine .inl ⟨habsent, hfree, fun h => ?_, F.full hfree⟩
      have := F.success.mp h
      rw [hfree, Finset.card_empty] at this
      omega
    · refine .inr ⟨fun h => hfree h.2, fun heq => ?_, F.mapped fun _ => ?_, F.cr3⟩
      · have hpresent := F.entry hfree
        simp only at heq
        rw [heq, habsent] at hpresent
        cases hpresent
      · rw [I.pml4 _ haddr]
        split
        · exact hugePage_identityTable pdpTable
        · rfl
  · -- the entry of the PML4 is the kernel's, and it is given to the user
    obtain ⟨hbit, hnone, hlt⟩ := I.static pdpTable (.inl rfl)
    have hpdpFree : pdpTable ∉ m.freeFrames := BitmapMemoryManager.notMem_freeFrames hbit
    have hne : pdpTable ≠ T := by
      rintro rfl
      rw [hnone] at hroot
      cases hroot
    have hpresent : (m.mem T (addr.part 4)).present = true := by
      rw [hentry, present_identityTable]
    have hlink : m.setNewPageMapIfNotPresent T (addr.part 4) = (⟨pdpTable, .kSuccess⟩, m) := by
      rw [Machine.setNewPageMapIfNotPresent, hpresent, hentry, pointer_identityTable hlt]
      rfl
    generalize he : ((identityTable pdpTable).setUser true).setWritable true = e
    have hepres : e.present = true := by
      rw [← he, present_setWritable, present_setUser, present_identityTable]
    have hehuge : e.hugePage = false := by
      rw [← he, hugePage_setWritable, hugePage_setUser, hugePage_identityTable]
    have heuser : e.user = true := by rw [← he, user_setWritable, user_setUser]
    have hewr : e.writable = true := by rw [← he, writable_setWritable]
    have heptr : e.pointer = pdpTable := by
      rw [← he, pointer_setWritable, pointer_setUser, pointer_identityTable hlt]
    have hmem₁ : (m.setFlags T (addr.part 4)).mem = m.mem.setEntry T (addr.part 4) e := by
      simp only [Machine.setFlags, Machine.setEntry_mem, setEntry_self, setEntry_setEntry, hentry, he]
    have hfree₁ : (m.setFlags T (addr.part 4)).freeFrames = m.freeFrames := rfl
    have hcr3₁ : (m.setFlags T (addr.part 4)).cr3 = m.cr3 := rfl
    have habsent₁ : ((m.setFlags T (addr.part 4)).mem pdpTable (addr.part 3)).present = false := by
      rw [hmem₁, setEntry_of_ne _ hne, hpdp, present_zero]
    have F : Fills 3 pdpTable addr (m.setFlags T (addr.part 4)) (Machine.setupPageMap true 3 pdpTable addr 1
      (m.setFlags T (addr.part 4))) := setupPageMap_fills 2 hpdpFree habsent₁ hend
    generalize hrest : Machine.setupPageMap true 3 pdpTable addr 1 (m.setFlags T (addr.part 4)) = r at F
    obtain ⟨rest, m₂⟩ := r
    rw [setupPageMap_one_succ hlink hrest F.value]
    have hentry₂ : m₂.mem T (addr.part 4) = e := by
      rw [F.other T _ hT fun h => absurd h hne.symm, hmem₁, setEntry_self]
    refine .inr ⟨fun h => ?_, fun heq => ?_, fun hok => ?_, F.cr3.trans hcr3₁⟩
    · rw [hpresent] at h
      cases h.1
    · have huser := congrArg PageMapEntry.user heq
      simp only at huser
      rw [hentry₂, hentry, user_identityTable, heuser] at huser
      cases huser
    · obtain ⟨c, hc, hwalk⟩ := F.mapped (fun _ => by rw [hmem₁, setEntry_of_ne _ hne, hpdp, hugePage_zero])
        ((success_ite rest).mp hok)
      rw [hfree₁] at hc
      refine ⟨c, hc, ?_⟩
      simp only at hwalk ⊢
      rw [walk_succ, hentry₂, hepres, if_pos rfl, hehuge, if_neg (by simp), heptr, hwalk]
      simp [heuser, hewr]

/-! ## A page that is brought in -/

theorem userAccess_of_walk (hcanon : addr.Canonical) (hw : walk m.mem addr 4 m.cr3 = some ⟨c, true, true⟩)
    (rw : Bool) : m.userAccess addr rw = .ok c := by
  rw [Machine.userAccess, if_pos hcanon, Machine.translate, hw]
  simp

/-- The kernel writes to one page. -/
theorem writePage_other {t : Translation} (hw : walk m.mem page 4 m.cr3 = some t) {f : Nat} (hf : f ≠ t.frame)
    (bytes : List UInt8) : (m.writePage page bytes).mem f = m.mem f := by
  rw [Machine.writePage, Machine.translate, hw]
  simp only
  rw [setBytes_eq_setPage, setPage_of_ne _ hf]

theorem writePage_cr3 (m : Machine) (page : LinearAddress4Level) (bytes : List UInt8) :
    (m.writePage page bytes).cr3 = m.cr3 := by
  rw [Machine.writePage]
  split
  · rfl
  · rfl

/-- A page of the address space is no table of it. -/
theorem walk_writePage (H : WellOwned M (m.store o)) (hroot : o T = some (T, [])) (hcr3 : m.cr3 = T)
    (haddr : 256 ≤ (page.part 4).val) (hw : walk m.mem page 4 T = some ⟨c, true, true⟩) (bytes : List UInt8) :
    walk (m.writePage page bytes).mem page 4 T = some ⟨c, true, true⟩ := by
  obtain ⟨-, howner⟩ := H.walk_owner hroot rfl (fun _ => haddr) hw
  rw [if_pos rfl, List.append_nil] at howner
  rw [H.walk_congr (fun f q hf hq => ?_) hroot rfl fun _ => haddr, hw]
  refine writePage_other (hcr3 ▸ hw) (fun hfc => ?_) bytes
  obtain ⟨-, rfl⟩ := Prod.mk.inj (Option.some.inj (howner.symm.trans (hfc ▸ hf)))
  exact absurd hq (by decide : ¬4 ≤ 3)

theorem missing_congr_part (mem : Memory) (h : ∀ level, page.part level = addr.part level)
    (level table : Nat) : missing mem page level table = missing mem addr level table := by
  induction level generalizing table with
  | zero => rfl
  | succ level ih => rw [missing, missing, h, ih]

/-- In the upper half, either all frames for a page are there or none is taken. -/
theorem bringPage_upper (H : WellOwned M (m.store o)) (hT : T ≠ M) (hroot : o T = some (T, []))
    (hcr3 : m.cr3 = T) (hend : m.memoryManager.rangeEnd ≤ 2 ^ 40) (hcanon : addr.Canonical)
    (haddr : 256 ≤ (addr.part 4).val) (hw : walk m.mem addr 4 T = none)
    (hpart : ∀ level, page.part level = addr.part level) :
    Settled T m o addr rw (m.bringPage page bytes) ↔
      m.freeFrames = ∅ ∨ missing m.mem addr 4 T ≤ m.freeFrames.card := by
  have hpage : 256 ≤ (page.part 4).val := by
    rw [hpart]
    exact haddr
  have hpageWalk : walk m.mem page 4 T = none := (walk_congr_part m.mem hpart 4 T).trans hw
  have S := setupPageMap_supplies 3 H hroot rfl (fun _ => hpage) hend hpageWalk
  have hset : m.setupPageMaps page 1 true = ((Machine.setupPageMap true 4 T page 1 m).1.error,
      (Machine.setupPageMap true 4 T page 1 m).2) := by rw [Machine.setupPageMaps, hcr3]
  simp only [Nat.reduceAdd] at S
  rw [Machine.bringPage, hset, ← missing_congr_part m.mem hpart]
  generalize Machine.setupPageMap true 4 T page 1 m = r at S hset
  obtain ⟨⟨value, err⟩, m₁⟩ := r
  simp only at hset ⊢
  have hother (f : Nat) (j : Fin 512) (hnot : ¬MayWrite T m o f j) : m₁.mem f j = m.mem f j := by
    refine S.other f j (fun hf => hnot (.inl hf)) fun q hq htr => ?_
    exact absurd (.inr ⟨q, hq, htr⟩) hnot
  by_cases hok : err = .kSuccess
  · obtain ⟨c, hc, hwalk⟩ := S.mapped hok
    simp only at hwalk
    have hcr3₁ : m₁.cr3 = T := S.cr3.trans hcr3
    obtain ⟨o', hb, -⟩ := setupPage_spec hT H hroot hcr3 hpage hend hpageWalk hset
    have hbytes := walk_writePage (hb.grows.wellOwned hT H) (hb.grows.owner hT H hroot) hcr3₁ hpage hwalk bytes
    rw [if_pos hok]
    refine iff_of_true ⟨.inr ⟨rfl, c, ?_⟩, fun f j hnot => ?_⟩ (.inr (S.success.mp hok))
    · refine userAccess_of_walk hcanon ?_ rw
      simp only
      rw [writePage_cr3, hcr3₁, ← walk_congr_part _ hpart, hbytes]
    · have hfc : f ≠ c := by
        rintro rfl
        exact hnot (.inl hc)
      simp only
      rw [writePage_other (hcr3₁ ▸ hwalk) hfc, hother f j hnot]
  · rw [if_neg hok]
    have hmissing : ¬missing m.mem page 4 T ≤ m.freeFrames.card := fun h => hok (S.success.mpr h)
    refine ⟨fun h => .inl ?_, fun h => ?_⟩
    · rcases h.outcome with ⟨-, hsame⟩ | ⟨hsuccess, -⟩
      · exact S.unchanged.mp hsame
      · exact absurd hsuccess hok
    · have hsame := S.unchanged.mpr (h.resolve_right hmissing)
      simp only at hsame
      rw [hsame]
      exact .refused hok

/-- In the lower half, the kernel's own PML4 entries are at stake. -/
theorem bringPage_lower (H : WellOwned M (m.store o)) (hroot : o T = some (T, [])) (hcr3 : m.cr3 = T)
    (I : IdentityMap m o T pdpTable pageDirectory) (hend : m.memoryManager.rangeEnd ≤ 2 ^ 40)
    (haddr : (addr.part 4).val < 256) (hw : walk m.mem addr 4 T = none)
    (hpart : ∀ level, page.part level = addr.part level) :
    Settled T m o addr rw (m.bringPage page bytes) ↔
      (m.mem T (addr.part 4)).present = false ∧ m.freeFrames = ∅ := by
  have hT := H.notMem_freeFrames hroot
  have hlower : (page.part 4).val < 256 := by
    rw [hpart]
    exact haddr
  have hspoilt := setupPageMaps_lower H hroot hcr3 I hend hlower ((walk_congr_part m.mem hpart 4 T).trans hw)
  rw [hpart] at hspoilt
  rw [Machine.bringPage]
  generalize m.setupPageMaps page 1 true = set at hspoilt
  obtain ⟨err, m₁⟩ := set
  simp only at hspoilt ⊢
  rcases hspoilt with ⟨habsent, hfree, herr, rfl⟩ | ⟨hnot, S⟩
  · rw [if_neg herr]
    exact iff_of_true (.refused herr) ⟨habsent, hfree⟩
  · have hkernel : ¬MayWrite T m o T (addr.part 4) := by
      rintro (hf | ⟨q, hq, htr⟩)
      · exact hT hf
      · rw [hroot] at hq
        cases hq
        exact absurd (htr rfl) (by omega)
    have hentry := S.entry
    rw [hpart] at hentry
    refine iff_of_false (fun h => ?_) hnot
    have hkept := h.kernel T (addr.part 4) hkernel
    split at hkept
    · -- the bytes of the file go to the new page
      rename_i hok
      obtain ⟨c, hc, hwalk⟩ := S.mapped hok
      have hTc : T ≠ c := by
        rintro rfl
        exact hT hc
      simp only at hwalk hkept
      rw [writePage_other (show walk m₁.mem page 4 m₁.cr3 = _ by rw [S.cr3, hcr3]; exact hwalk) hTc] at hkept
      exact hentry hkept
    · exact hentry hkept

/-- A fault of the user is for a page that is missing, or for one that does not allow the access. -/
theorem pageFault_cases {errorCode : Nat} (h : m.userAccess addr rw = .error (.pageFault errorCode)) :
    addr.Canonical ∧ ((m.translate addr = none ∧ errorCode = pageFaultCode false rw true) ∨
      ∃ t, m.translate addr = some t ∧ ¬(t.user = true ∧ (rw = true → t.writable = true)) ∧
        errorCode = pageFaultCode true rw true) := by
  rw [Machine.userAccess] at h
  split at h
  · refine ⟨‹_›, ?_⟩
    cases hw : m.translate addr with
    | none =>
      simp only [hw, Except.error.injEq, Exception.pageFault.injEq] at h
      exact .inl ⟨rfl, h.symm⟩
    | some t =>
      simp only [hw] at h
      split at h
      · cases h
      · rename_i hnot
        cases h
        refine .inr ⟨t, rfl, fun hok => hnot ?_, rfl⟩
        cases rw with
        | false => simp [hok.1]
        | true => simp [hok.1, hok.2 rfl]
  · cases h

theorem setPageContent_memoryManager (addr : LinearAddress4Level) (content part table : Nat) (m : Machine) :
    (Machine.setPageContent addr content part table m).memoryManager = m.memoryManager := by
  induction part using Nat.twoStepInduction generalizing table with
  | zero => rfl
  | one => rfl
  | more part _ ih => exact ih _

/-- The frame that `CopyOnePage` takes was free. -/
theorem mem_freeFrames_of_copyOnePage {f : Nat} (hf : m.memoryManager.getBit f = false)
    (h : (m.copyOnePage addr).2.memoryManager.getBit f = true) : f ∈ m.freeFrames := by
  rw [Machine.copyOnePage] at h
  rcases newPageMap_free m with ⟨c, m₁, hnew, hc, -, -, hmgr₁, -, -⟩ | ⟨-, hnew⟩
  · rw [hnew] at h
    simp only [if_true, setPageContent_memoryManager, Machine.setPage, hmgr₁, getBit_markAllocated_one] at h
    by_cases hfc : f = c
    · rw [hfc]
      exact hc
    · rw [Function.update_of_ne hfc, hf] at h
      cases h
  · rw [hnew] at h
    rw [show m.memoryManager.getBit f = true from h] at hf
    cases hf

/-- A page of the upper half that is there is shared, and the store gets a copy. -/
theorem copyOnePage_upper (H : WellOwned M (m.store o)) (hT : T ≠ M) (hroot : o T = some (T, []))
    (hcr3 : m.cr3 = T) (hend : m.memoryManager.rangeEnd ≤ 2 ^ 40) (hcanon : addr.Canonical)
    (haddr : 256 ≤ (addr.part 4).val) {t : Translation} (hw : walk m.mem addr 4 T = some t)
    (hshared : t.writable = false) : Settled T m o addr rw (m.copyOnePage addr) := by
  rcases copyOnePage_spec H hT hroot hcr3 hend haddr hw hshared with ⟨c, m', hcopy, C⟩ | ⟨hcopy, -⟩
  · rw [hcopy]
    refine ⟨.inr ⟨rfl, c, userAccess_of_walk hcanon ?_ rw⟩, fun f j hnot => ?_⟩
    · rw [C.builds.cr3, hcr3]
      exact C.walk_self
    · by_cases hf : ∃ q, q.length ≤ 3 ∧ o f = some (T, q)
      · obtain ⟨q, -, hq⟩ := hf
        have hq0 : q = [] := by
          by_contra hne
          exact hnot (.inr ⟨q, hq, fun h => absurd h hne⟩)
        rw [hq0] at hq
        exact C.builds.grows.entry hT H hq (Nat.zero_lt_succ 2) fun htr => absurd (.inr ⟨[], hq, htr⟩) hnot
      · have hfc : f ≠ c := by
          rintro rfl
          have H' := C.builds.grows.wellOwned hT H
          have hbit : (m.copyOnePage addr).2.memoryManager.getBit f = true := by
            rw [hcopy]
            refine H'.allocated f ?_
            simp
          exact hnot (.inl (mem_freeFrames_of_copyOnePage C.fresh hbit))
        rw [C.mem f hfc fun q hq hf' => hf ⟨q, hq, hf'⟩]
  · rw [hcopy]
    exact .refused (by decide)

/-- The handler settles exactly these faults of an application. -/
theorem handlePageFault_settled_iff (H : WellOwned M (m.store o)) (hT : T ≠ M) (hroot : o T = some (T, []))
    (hcr3 : m.cr3 = T) (I : IdentityMap m o T pdpTable pageDirectory)
    (hend : m.memoryManager.rangeEnd ≤ 2 ^ 40) {errorCode : Nat}
    (haccess : m.userAccess addr rw = .error (.pageFault errorCode)) :
    Settled T m o addr rw (m.handlePageFault task errorCode addr) ↔ m.Handles task addr rw := by
  obtain ⟨hcanon, ⟨hw, rfl⟩ | ⟨t, hw, hnot, rfl⟩⟩ := pageFault_cases haccess
  · have hwalk : walk m.mem addr 4 T = none := by
      rw [← hcr3]
      exact hw
    by_cases hexp : Expected task addr
    · obtain ⟨page, bytes, hpart, hpage⟩ := handlePageFault_expected hexp m rw
      rw [hpage]
      by_cases haddr : (addr.part 4).val < 256
      · rw [bringPage_lower H hroot hcr3 I hend haddr hwalk hpart, ← hcr3]
        exact ⟨fun h => ⟨fun _ h' => absurd hw h', fun _ _ _ => h, fun h' => absurd haddr (Nat.not_lt.mpr h')⟩,
          fun h => h.lower haddr hw hexp⟩
      · have hupper := Nat.le_of_not_lt haddr
        rw [bringPage_upper H hT hroot hcr3 hend hcanon hupper hwalk hpart, ← hcr3]
        exact ⟨fun h => ⟨fun h' => absurd h' haddr, fun h' => absurd h' haddr, fun _ _ _ => h⟩,
          fun h => h.upper hupper hw hexp⟩
    · rw [handlePageFault_unexpected hexp]
      exact iff_of_true (.refused (by decide)) ⟨fun _ h => absurd hw h, fun _ _ h => absurd h hexp,
        fun _ _ h => absurd h hexp⟩
  · have hsome : m.translate addr ≠ none := by
      rw [hw]
      exact Option.some_ne_none t
    rw [handlePageFault_present]
    by_cases haddr : (addr.part 4).val < 256
    · have hiff : m.Handles task addr rw ↔ rw = false ∨ m.freeFrames = ∅ :=
        ⟨fun h => h.identity haddr hsome, fun h => ⟨fun _ _ => h, fun _ h' => absurd h' hsome,
          fun h' => absurd haddr (Nat.not_lt.mpr h')⟩⟩
      rw [hiff]
      cases rw with
      | false => exact iff_of_true (.refused (by decide)) (.inl rfl)
      | true =>
        have huser : (m.mem m.cr3 (addr.part 4)).user = false := by
          rw [hcr3]
          exact I.user_pml4 haddr
        have hused : m.cr3 ∉ m.freeFrames := by
          rw [hcr3]
          exact H.notMem_freeFrames hroot
        rcases copyOnePage_lower huser hused with ⟨hfree, hcopy⟩ | ⟨hfree, hok, hfaults⟩
        · rw [if_pos rfl, hcopy]
          exact iff_of_true (.refused (by decide)) (.inr hfree)
        · refine iff_of_false (fun h => ?_) (by simpa using hfree)
          rcases h.outcome with ⟨herr, -⟩ | ⟨-, f, hf⟩
          · exact herr hok
          · exact hfaults f hf
    · have hupper := Nat.le_of_not_lt haddr
      have hwalk : walk m.mem addr 4 T = some t := by
        rw [← hcr3]
        exact hw
      obtain ⟨huser, -⟩ := H.walk_owner hroot rfl (fun _ => hupper) hwalk
      have hhandles : m.Handles task addr rw :=
        ⟨fun h' => absurd h' haddr, fun h' => absurd h' haddr, fun _ h' => absurd h' hsome⟩
      refine iff_of_true ?_ hhandles
      cases rw with
      | false => exact absurd ⟨huser, fun h => by cases h⟩ hnot
      | true =>
        have hshared : t.writable = false := by
          rw [Bool.eq_false_iff]
          exact fun hwr => hnot ⟨huser, fun _ => hwr⟩
        exact copyOnePage_upper H hT hroot hcr3 hend hcanon hupper hwalk hshared

/-- The identity map stays while the application runs. -/
theorem IdentityMap.run (I : IdentityMap m o T pdpTable pageDirectory) {m₀ : Machine}
    {o₀ : Nat → Option Place} (A : Alive M T m₀ o₀ m o) (hT : T ≠ M) {es : List ExecuteFile.Event}
    (hrun : ExecuteFile.system.Run m es m') :
    ∃ o', Alive M T m₀ o₀ m' o' ∧ IdentityMap m' o' T pdpTable pageDirectory := by
  refine hrun.invariant (I := fun m => ∃ o, Alive M T m₀ o₀ m o ∧ IdentityMap m o T pdpTable pageDirectory)
    (fun s e s' hs hstep => ?_) ⟨o, A, I⟩
  obtain ⟨o₁, A₁, I₁⟩ := hs
  obtain ⟨o₂, hb⟩ := A₁.step_builds hT hstep
  exact ⟨o₂, A₁.build hT hb, I₁.builds A₁.wellOwned hT A₁.root hb⟩

/-! ## An application beside the cached one -/

/-- Frames that nobody owns may be in use and hold anything. -/
theorem Store.WellOwned.of_owned {s s' : Store} (H : WellOwned M s) (howner : s'.owner = s.owner)
    (hmem : ∀ f, s.owner f ≠ none → s'.mem f = s.mem f)
    (hused : ∀ f, s.owner f ≠ none → s'.allocated f = true) : WellOwned M s' := by
  have hentry {n r : Nat} {p : List (Fin 512)} (hn : s'.owner n = some (r, p)) : s'.mem n = s.mem n := by
    refine hmem n ?_
    rw [← howner, hn]
    exact Option.some_ne_none _
  refine ⟨?_, fun f hf => hused f (howner ▸ hf), fun n r p i hn => ?_, fun n r p i hn => ?_⟩
  · rw [howner]
    refine H.forest.congr fun n hn => funext fun i => ?_
    exact kid_congr (congrFun howner n) (congrFun (hmem n hn) i)
  · rw [hentry hn]
    exact H.table n r p i (howner ▸ hn)
  · rw [hentry hn, howner]
    exact H.leaf n r p i (howner ▸ hn)

/-- The PML4 is in frame 6, and the kernel's tables are in the frames from 64 on. -/
def applicationMemory : Memory := fun f i =>
  if f = 6 then if i = 0 then identityTable 64 else 0
  else if f = 64 then if i.val < 64 then identityTable (65 + i.val) else 0
  else if 65 ≤ f ∧ f < 129 then identityPage (f - 65) i
  else imageMemory f i

def applicationMachine : Machine where
  mem := applicationMemory
  memoryManager := {
    allocMap := fun line => if line = 0 then 0x7f else 0xffffffffffffffff
    rangeBegin := 1
    rangeEnd := 64 }
  cr3 := 6
  freed := []

def applicationOwner : Nat → Option Place := Function.update imageOwner 6 (some (6, []))

theorem applicationMachine_wellOwned : WellOwned 1 (applicationMachine.store applicationOwner) := by
  have hused : ∀ f, f < 7 → applicationMachine.memoryManager.getBit f = true := by decide
  have hlt (f : Nat) (hf : applicationOwner f ≠ none) : f < 7 := by
    obtain ⟨⟨r, p⟩, hf⟩ := Option.ne_none_iff_exists'.mp hf
    by_cases hf6 : f = 6
    · omega
    · rw [applicationOwner, Function.update_of_ne hf6] at hf
      obtain ⟨-, ⟨rfl, -⟩ | ⟨rfl, -⟩ | ⟨rfl, -⟩ | ⟨rfl, -⟩ | ⟨rfl, -⟩⟩ := imageOwner_cases hf
      all_goals decide
  have hfree : (imageMachine.store imageOwner).allocated 6 = false := by decide
  have hupper : ∀ i : Fin 512, 256 ≤ i.val → applicationMemory 6 i = 0 := by decide +kernel
  refine (imageMachine_wellOwned.addRoot hfree hupper).of_owned rfl (fun f hf => ?_)
    fun f hf => hused f (hlt f hf)
  have hf7 := hlt f hf
  change applicationMemory f = imageMemory.setPage 6 (applicationMemory 6) f
  by_cases hf6 : f = 6
  · rw [hf6, setPage_self]
  · rw [setPage_of_ne _ hf6]
    funext i
    rw [applicationMemory, if_neg hf6, if_neg (by omega), if_neg (by omega)]

def applicationDirectory (iPdpt : Fin kPageDirectoryCount) : Nat := 65 + iPdpt

theorem applicationMachine_identityMap :
    IdentityMap applicationMachine applicationOwner 6 64 applicationDirectory where
  pml4 i _ := rfl
  pdp i := by
    change (if i.val < 64 then identityTable (65 + i.val) else 0) = _
    by_cases hi : i.val < kPageDirectoryCount
    · rw [dif_pos hi]
      exact if_pos hi
    · rw [dif_neg hi]
      exact if_neg hi
  directory iPdpt i := by
    have hlt : iPdpt.val < 64 := iPdpt.isLt
    change applicationMemory (65 + iPdpt) i = identityPage iPdpt i
    rw [applicationMemory, if_neg (by omega), if_neg (by omega), if_pos (by omega), Nat.add_sub_cancel_left]
  static := by
    have hused : ∀ f, f < 129 → 64 ≤ f → applicationMachine.memoryManager.getBit f = true := by decide
    have hstatic (f : Nat) (hlo : 64 ≤ f) (hhi : f < 129) :
        applicationMachine.memoryManager.getBit f = true ∧ applicationOwner f = none ∧ f < 2 ^ 40 := by
      refine ⟨hused f hhi hlo, ?_, by omega⟩
      rw [applicationOwner, Function.update_of_ne (by omega), imageOwner]
      simp only [show f ≠ 1 by omega, show f ≠ 2 by omega, show f ≠ 3 by omega, show f ≠ 4 by omega,
        show f ≠ 5 by omega, if_false]
    rintro f (rfl | ⟨iPdpt, rfl⟩)
    · exact hstatic 64 (by decide) (by decide)
    · have hlt : iPdpt.val < 64 := iPdpt.isLt
      exact hstatic _ (Nat.le_trans (by decide) (Nat.le_add_right 65 _)) (Nat.add_lt_add_left hlt 65)

/-- A page of `demandTask`. -/
def demandAddr : LinearAddress4Level := { Instances.imageAddr 0 with page := 1 }

theorem handlePageFault_settled_demand :
    applicationMachine.userAccess demandAddr true = .error (.pageFault 6) ∧
      Settled 6 applicationMachine applicationOwner demandAddr true
        (applicationMachine.handlePageFault demandTask 6 demandAddr) := by
  have haccess : applicationMachine.userAccess demandAddr true = .error (.pageFault 6) := by decide
  have hframes : missing applicationMachine.mem demandAddr 4 6 ≤ applicationMachine.freeFrames.card := by
    decide +kernel
  have hupper : ¬(demandAddr.part 4).val < 256 := by decide
  refine ⟨haccess, (handlePageFault_settled_iff applicationMachine_wellOwned (by decide) rfl rfl
    applicationMachine_identityMap (by decide) haccess).mpr ?_⟩
  exact ⟨fun h => absurd h hupper, fun h => absurd h hupper, fun _ _ _ => .inr hframes⟩

/-- The first byte of memory. -/
def zeroAddr : LinearAddress4Level := ⟨0, 0, 0, 0, 0, 0⟩

open Instances in
/-- A store there succeeds in the view of the handler, which has written to frame 0 by then. -/
theorem not_settled_zeroAddr :
    WellOwned 1 (applicationMachine.store applicationOwner) ∧
      IdentityMap applicationMachine applicationOwner 6 64 applicationDirectory ∧
      applicationMachine.userAccess zeroAddr true = .error (.pageFault 7) ∧
      (applicationMachine.handlePageFault noTask 7 zeroAddr).1 = .kSuccess ∧
      (applicationMachine.handlePageFault noTask 7 zeroAddr).2.userAccess zeroAddr true =
        .error (.pageFault 7) ∧
      (applicationMachine.handlePageFault noTask 7 zeroAddr).2.mem 0 0 ≠ applicationMachine.mem 0 0 ∧
      ¬Settled 6 applicationMachine applicationOwner zeroAddr true
        (applicationMachine.handlePageFault noTask 7 zeroAddr) := by
  have hok : (applicationMachine.handlePageFault noTask 7 zeroAddr).1 = .kSuccess := by decide +kernel
  have hfaults : (applicationMachine.handlePageFault noTask 7 zeroAddr).2.userAccess zeroAddr true =
      .error (.pageFault 7) := by decide +kernel
  refine ⟨applicationMachine_wellOwned, applicationMachine_identityMap, by decide, hok, hfaults,
    by decide +kernel, fun h => ?_⟩
  rcases h.outcome with ⟨herr, -⟩ | ⟨-, f, hf⟩
  · exact herr hok
  · rw [hfaults] at hf
    cases hf

end MikanOS
