import MikanOS.Paging.CleanPageMaps
import MikanOS.Paging.Instances
import MikanOS.Paging.SetupPageMaps

/-! # The life of an application

`Terminal::ExecuteFile` around `CallApp`: the frames that an application has taken when it ends are
given back, each of them once. -/

namespace MikanOS

open PageMapEntry LinearAddress4Level Memory Store

variable {M T c : Nat} {m m' m₀ : Machine} {o o' o₀ : Nat → Option Place}
  {addr : LinearAddress4Level} {task : PagingTask}

/-- `args_frame_addr`. -/
def argsFrameAddr : LinearAddress4Level := .ofValue 0xfffffffffffff000

/-- `stack_frame_addr`. -/
def stackFrameAddr : LinearAddress4Level := .ofValue (0xffffffffffffe000 - 16 * 4096)

/-- `ExecuteFile` up to `CallApp`, for an application that is in `app_loads`. `argv` is what
`MakeArgVector` writes to the argument page. -/
def Machine.executeFileBegin (m : Machine) (appLoad : Nat) (argv : List UInt8) : Error × Machine :=
  let (pml4, m) := m.loadApp appLoad
  if pml4.error = .kSuccess then
    let (err, m) := m.setupPageMaps argsFrameAddr 1 true
    if err = .kSuccess then (m.writePage argsFrameAddr argv).setupPageMaps stackFrameAddr 16 true
    else (err, m)
  else (pml4.error, m)

/-- `ExecuteFile` from `CallApp` on. -/
def Machine.executeFileEnd (m : Machine) (kernelPML4 : Nat) : Error × Machine :=
  let (err, m) := m.cleanPageMaps (.ofValue 0xffff800000000000)
  if err = .kSuccess then m.freePML4 kernelPML4 else (err, m)

/-- The page fault that an access raises, by its error code. The kernel does not ask what the entries
allow. -/
def Machine.raises (m : Machine) (addr : LinearAddress4Level) (rw user : Bool) : Option Nat :=
  if user then
    match m.userAccess addr rw with
    | .error (.pageFault errorCode) => some errorCode
    | _ => none
  else if addr.Canonical ∧ m.translate addr = none then some (pageFaultCode false rw false)
  else none

namespace ExecuteFile

/-- What a running application does to the memory: its accesses and those of the kernel on its behalf
fault, and its stores arrive. -/
inductive Event where
  | fault (task : PagingTask) (addr : LinearAddress4Level) (rw user : Bool)
  | store (addr : LinearAddress4Level) (b : UInt8)

/-- The application works in the upper half, and there is a frame where the handler needs one. An
access that the handler refuses ends the application. -/
def step (m : Machine) : Event → Option Machine
  | .fault task addr rw user =>
    match m.raises addr rw user with
    | some errorCode =>
      let (err, m) := m.handlePageFault task errorCode addr
      if 256 ≤ (addr.part 4).val ∧ err ≠ .kNoEnoughMemory then some m else none
    | none => none
  | .store addr b => if 256 ≤ (addr.part 4).val then (m.userStore addr b).toOption else none

def system : Transition.System Machine Event := ⟨step⟩

end ExecuteFile

/-! ## The steps -/

theorem samePages_one (h : SamePages addr 1 addr') (level : Nat) :
    addr'.part level = addr.part level := by
  obtain ⟨hparts, hlo, hhi⟩ := h
  rcases level with _ | _ | level
  · rfl
  · exact Fin.ext (show addr'.page.val = addr.page.val by omega)
  · exact hparts _ (by omega)

/-- One page is set up. -/
theorem setupPage_spec (hT : T ≠ M) (H : WellOwned M (m.store o)) (hroot : o T = some (T, []))
    (hcr3 : m.cr3 = T) (haddr : 256 ≤ (addr.part 4).val)
    (hend : m.memoryManager.rangeEnd ≤ 2 ^ 40) (habsent : walk m.mem addr 4 T = none) {err : Error}
    (h : m.setupPageMaps addr 1 true = (err, m')) :
    ∃ o', Builds M T m o m' o' ∧
      (∀ f q, o' f = some (T, q) → q.length = 4 → o f = some (T, q) ∨ q = addr.place 4) ∧
      Kept T m o m' o' ∧ (err = .kSuccess ∨ err = .kNoEnoughMemory) ∧
      (err = .kSuccess → ∃ c, walk m'.mem addr 4 T = some ⟨c, true, true⟩) := by
  obtain ⟨o', hb, hpages, hkept, herr, hdone⟩ := setupPageMaps_spec hT H hroot hcr3 haddr
    Nat.one_ne_zero (Nat.succ_le_of_lt addr.page.isLt) hend fun addr' hsame =>
      (walk_congr_part m.mem (samePages_one hsame) 4 T).trans habsent
  rw [h] at hb hkept herr hdone
  refine ⟨o', hb, fun f q hf hq => (hpages f q hf hq).imp_right fun hplace => ?_, hkept, herr, fun hok =>
    hdone hok addr ⟨fun _ _ => rfl, le_rfl, Nat.lt_succ_self _⟩⟩
  obtain ⟨addr', hsame, rfl⟩ := hplace
  simp only [place_four, samePages_one hsame]

/-- The kernel writes to a page that the application has of its own. -/
theorem writePage_spec (H : WellOwned M (m.store o)) (hroot : o T = some (T, [])) (hcr3 : m.cr3 = T)
    (haddr : 256 ≤ (addr.part 4).val) (hw : walk m.mem addr 4 T = some ⟨c, true, true⟩)
    (bytes : List UInt8) : Builds M T m o (m.writePage addr bytes) o := by
  obtain ⟨-, howner⟩ := H.walk_owner hroot rfl (fun _ => haddr) hw
  rw [List.append_nil] at howner
  have hwrite : m.writePage addr bytes = { m with mem := m.mem.setBytes c 0 bytes } := by
    rw [Machine.writePage, Machine.translate, hcr3, hw]
  rw [hwrite]
  refine ⟨.single ?_, rfl, rfl, rfl⟩
  rw [Machine.store, setBytes_eq_setPage]
  exact .write _ howner rfl

/-- In the upper half, a fault is for a page that is missing, or it is a user store to a shared one. -/
theorem raises_cases (H : WellOwned M (m.store o)) (hroot : o T = some (T, [])) (hcr3 : m.cr3 = T)
    (haddr : 256 ≤ (addr.part 4).val) {rw user : Bool} {errorCode : Nat}
    (h : m.raises addr rw user = some errorCode) :
    (walk m.mem addr 4 T = none ∧ errorCode.testBit 0 = false) ∨
      ∃ t, walk m.mem addr 4 T = some t ∧ t.writable = false ∧ errorCode = 7 := by
  have hcode : (pageFaultCode false rw user).testBit 0 = false := by
    cases rw <;> cases user <;> rfl
  cases user with
  | false =>
    simp only [Machine.raises, Bool.false_eq_true, if_false, Machine.translate, hcr3,
      Option.ite_none_right_eq_some, Option.some.injEq] at h
    obtain ⟨⟨-, hw⟩, rfl⟩ := h
    exact .inl ⟨hw, hcode⟩
  | true =>
    simp only [Machine.raises, if_true, Machine.userAccess, Machine.translate, hcr3] at h
    by_cases hcanon : addr.Canonical
    · simp only [hcanon, if_true] at h
      cases hw : walk m.mem addr 4 T with
      | none =>
        simp only [hw, Option.some.injEq] at h
        exact .inl ⟨rfl, h ▸ hcode⟩
      | some t =>
        obtain ⟨huser, -⟩ := H.walk_owner hroot rfl (fun _ => haddr) hw
        simp only [hw, huser, Bool.true_and] at h
        cases rw with
        | false => simp at h
        | true =>
          cases hwr : t.writable with
          | true => simp [hwr] at h
          | false =>
            simp only [hwr, Bool.not_true, Bool.or_false, Bool.false_eq_true, if_false,
              Option.some.injEq] at h
            exact .inr ⟨t, rfl, hwr, h.symm⟩
    · simp only [hcanon, if_false] at h
      cases h

/-- `PreparePageCache` of a page that is missing. -/
theorem preparePageCache_spec (hT : T ≠ M) (H : WellOwned M (m.store o))
    (hroot : o T = some (T, [])) (hcr3 : m.cr3 = T) (haddr : 256 ≤ (addr.part 4).val)
    (hend : m.memoryManager.rangeEnd ≤ 2 ^ 40) (habsent : walk m.mem addr 4 T = none) {fd : FileLoad}
    {f : FileMapping} {err : Error} (h : m.preparePageCache fd f addr = (err, m')) :
    ∃ o', Builds M T m o m' o' := by
  rw [Machine.preparePageCache] at h
  have hpart : ∀ level, ({ addr with offset := 0 } : LinearAddress4Level).part level =
    addr.part level := part_offset addr 0
  generalize ({ addr with offset := 0 } : LinearAddress4Level) = pageVaddr at h hpart
  have hpage : 256 ≤ (pageVaddr.part 4).val := by
    rw [hpart]
    exact haddr
  generalize hset : m.setupPageMaps pageVaddr 1 true = set at h
  obtain ⟨err₁, m₁⟩ := set
  obtain ⟨o', hb, -, -, -, hdone⟩ := setupPage_spec hT H hroot hcr3 hpage hend
    ((walk_congr_part m.mem hpart 4 T).trans habsent) hset
  by_cases hok : err₁ = .kSuccess
  · simp only [hok, if_true, Prod.mk.injEq] at h
    obtain ⟨-, rfl⟩ := h
    obtain ⟨c, hc⟩ := hdone hok
    exact ⟨o', hb.trans (writePage_spec (hb.grows.wellOwned hT H) (hb.grows.owner hT H hroot)
      (hb.cr3.trans hcr3) hpage hc _)⟩
  · simp only [hok, if_false, Prod.mk.injEq] at h
    obtain ⟨-, rfl⟩ := h
    exact ⟨o', hb⟩

/-- A fault in the upper half is handled within the tree. -/
theorem handlePageFault_spec (hT : T ≠ M) (H : WellOwned M (m.store o))
    (hroot : o T = some (T, [])) (hcr3 : m.cr3 = T) (haddr : 256 ≤ (addr.part 4).val)
    (hend : m.memoryManager.rangeEnd ≤ 2 ^ 40) {rw user : Bool} {errorCode : Nat} {err : Error}
    (hraises : m.raises addr rw user = some errorCode)
    (h : m.handlePageFault task errorCode addr = (err, m')) (herr : err ≠ .kNoEnoughMemory) :
    ∃ o', Builds M T m o m' o' := by
  rcases raises_cases H hroot hcr3 haddr hraises with ⟨hw, hbit⟩ | ⟨t, hw, hshared, rfl⟩
  · simp only [Machine.handlePageFault, hbit, Bool.false_and, Bool.false_eq_true, if_false] at h
    split at h
    · obtain ⟨o', hb, -⟩ := setupPage_spec hT H hroot hcr3 haddr hend hw h
      exact ⟨o', hb⟩
    · split at h
      · exact preparePageCache_spec hT H hroot hcr3 haddr hend hw h
      · cases h
        exact ⟨o, .refl⟩
  · have hcopy : m.handlePageFault task 7 addr = m.copyOnePage addr := rfl
    rw [hcopy] at h
    rcases copyOnePage_spec H hT hroot hcr3 hend haddr hw hshared with ⟨c, m₁, h', hcopied⟩ | ⟨h', -⟩
    · rw [h'] at h
      cases h
      exact ⟨_, hcopied.builds⟩
    · rw [h'] at h
      cases h
      exact absurd rfl herr

/-- Where a user store arrives. -/
theorem userStore_ok {b : UInt8} (h : m.userStore addr b = .ok m') :
    addr.Canonical ∧ ∃ t, walk m.mem addr 4 m.cr3 = some t ∧ t.writable = true ∧
      m' = { m with mem := m.mem.setByteAt t.frame addr.offset b } := by
  rw [Machine.userStore, Machine.userAccess, Machine.translate] at h
  by_cases hcanon : addr.Canonical
  · rw [if_pos hcanon] at h
    refine ⟨hcanon, ?_⟩
    cases hw : walk m.mem addr 4 m.cr3 with
    | none =>
      rw [hw] at h
      cases h
    | some t =>
      simp only [hw] at h
      split at h
      · rename_i hallowed
        cases h
        exact ⟨t, rfl, by simpa using (Bool.and_eq_true_iff.mp hallowed).2, rfl⟩
      · cases h
  · rw [if_neg hcanon] at h
    cases h

/-! ## While it runs -/

/-- The address space of the application is a tree `T`, and the rest of the memory is as it was. -/
structure Alive (M T : Nat) (m₀ : Machine) (o₀ : Nat → Option Place) (m : Machine)
    (o : Nat → Option Place) : Prop where
  wellOwned : WellOwned M (m.store o)
  root : o T = some (T, [])
  cr3 : m.cr3 = T
  rangeEnd : m.memoryManager.rangeEnd ≤ 2 ^ 40
  frame : Frame T (m₀.store o₀) (m.store o)
  freed : m.freed = m₀.freed

theorem Alive.build (A : Alive M T m₀ o₀ m o) (hT : T ≠ M) (hb : Builds M T m o m' o') :
    Alive M T m₀ o₀ m' o' :=
  ⟨hb.grows.wellOwned hT A.wellOwned, hb.grows.owner hT A.wellOwned A.root, hb.cr3.trans A.cr3,
    hb.rangeEnd ▸ A.rangeEnd, A.frame.trans hb.grows.frame, hb.grows.freed.trans A.freed⟩

theorem Alive.step_builds (A : Alive M T m₀ o₀ m o) (hT : T ≠ M) {e : ExecuteFile.Event}
    (h : ExecuteFile.step m e = some m') : ∃ o', Builds M T m o m' o' := by
  cases e with
  | fault task addr rw user =>
    simp only [ExecuteFile.step] at h
    split at h
    · rename_i errorCode hraises
      generalize hhandle : m.handlePageFault task errorCode addr = handled at h
      obtain ⟨err, m₁⟩ := handled
      simp only [Option.ite_none_right_eq_some, Option.some.injEq] at h
      obtain ⟨⟨haddr, herr⟩, rfl⟩ := h
      exact handlePageFault_spec hT A.wellOwned A.root A.cr3 haddr A.rangeEnd hraises hhandle herr
    · cases h
  | store addr b =>
    simp only [ExecuteFile.step, Option.ite_none_right_eq_some] at h
    obtain ⟨haddr, h⟩ := h
    have hstore : m.userStore addr b = .ok m' := by
      cases hu : m.userStore addr b with
      | error => rw [hu] at h; cases h
      | ok m₁ => rw [hu] at h; cases h; rfl
    obtain ⟨hcanon, t, hw, hwritable, rfl⟩ := userStore_ok hstore
    rw [A.cr3] at hw
    obtain ⟨hb, -⟩ := setByteAt_spec A.wellOwned A.root haddr hcanon hw hwritable b
    exact ⟨o, hb⟩

theorem Alive.step (A : Alive M T m₀ o₀ m o) (hT : T ≠ M) {e : ExecuteFile.Event}
    (h : ExecuteFile.step m e = some m') : ∃ o', Alive M T m₀ o₀ m' o' := by
  obtain ⟨o', hb⟩ := A.step_builds hT h
  exact ⟨o', A.build hT hb⟩

/-- What was mapped in the other trees still is. -/
theorem Alive.walk_eq {r : Nat} (A : Alive M T m₀ o₀ m o) (H₀ : WellOwned M (m₀.store o₀))
    (hr : o₀ r = some (r, [])) (hne : r ≠ T) (haddr : 256 ≤ (addr.part 4).val) :
    walk m.mem addr 4 r = walk m₀.mem addr 4 r :=
  H₀.walk_congr (fun _ _ hf _ => (A.frame.other H₀ hf hne).1) hr rfl fun _ => haddr

/-- An address without a page of its own is mapped only if the image has it. -/
theorem Alive.unmapped (A : Alive M T m₀ o₀ m o) (H₀ : WellOwned M (m₀.store o₀)) (hT : T ≠ M)
    (hM : o₀ M = some (M, [])) (haddr : 256 ≤ (addr.part 4).val)
    (himage : walk m₀.mem addr 4 M = none) (hpages : ∀ f, o f ≠ some (T, addr.place 4)) :
    walk m.mem addr 4 T = none := by
  cases hw : walk m.mem addr 4 T with
  | none => rfl
  | some t =>
    obtain ⟨-, howner⟩ := A.wellOwned.walk_owner A.root rfl (fun _ => haddr) hw
    rw [List.append_nil] at howner
    cases hwritable : t.writable with
    | true =>
      rw [hwritable] at howner
      exact absurd howner (hpages t.frame)
    | false =>
      rw [hwritable] at howner
      have hsome : (walk m.mem addr 4 M).isSome := A.wellOwned.isSome_walk_of_owner
        (A.frame.other H₀ hM hT.symm).2 rfl (fun _ => haddr) (howner.trans (by simp))
      rw [A.walk_eq H₀ hM hT.symm haddr, himage] at hsome
      cases hsome

/-- The address space is set up, with pages of its own for the arguments and the stack. -/
theorem Alive.begin (H₀ : WellOwned M (m₀.store o₀)) (hM : o₀ M = some (M, []))
    (hend : m₀.memoryManager.rangeEnd ≤ 2 ^ 40) (hargs : walk m₀.mem argsFrameAddr 4 M = none)
    (hstack : ∀ addr, SamePages stackFrameAddr 16 addr → walk m₀.mem addr 4 M = none)
    {argv : List UInt8} (h : m₀.executeFileBegin M argv = (.kSuccess, m)) :
    ∃ T o, T ≠ M ∧ m₀.memoryManager.getBit T = false ∧ Alive M T m₀ o₀ m o ∧
      ∀ f q, o f = some (T, q) → q.length = 4 → q = argsFrameAddr.place 4 ∨
        ∃ addr, SamePages stackFrameAddr 16 addr ∧ q = addr.place 4 := by
  have hargsUpper : 256 ≤ (argsFrameAddr.part 4).val := by decide
  have hstackUpper : 256 ≤ (stackFrameAddr.part 4).val := by decide
  rw [Machine.executeFileBegin] at h
  by_cases hload : (m₀.loadApp M).1.error = .kSuccess
  · obtain ⟨o₁, hl⟩ := loadApp_spec H₀ hM hend hload
    generalize m₀.loadApp M = loaded at h hload hl
    obtain ⟨⟨T, err⟩, m₁⟩ := loaded
    simp only at hload hl
    simp only [hload, if_true] at h
    have hT := hl.ne
    have A₁ : Alive M T m₀ o₀ m₁ o₁ :=
      ⟨hl.wellOwned, hl.root, hl.cr3, hl.rangeEnd ▸ hend, hl.frame, hl.freed⟩
    generalize hset : m₁.setupPageMaps argsFrameAddr 1 true = set at h
    obtain ⟨err₂, m₂⟩ := set
    obtain ⟨o₂, hb, hpages, -, -, hdone⟩ := setupPage_spec hT A₁.wellOwned A₁.root A₁.cr3 hargsUpper
      A₁.rangeEnd (A₁.unmapped H₀ hT hM hargsUpper hargs fun f hf => hl.pages f _ hf rfl) hset
    have A₂ := A₁.build hT hb
    by_cases hok : err₂ = .kSuccess
    · simp only [hok, if_true] at h
      obtain ⟨c, hc⟩ := hdone hok
      have A₃ := A₂.build hT (writePage_spec A₂.wellOwned A₂.root A₂.cr3 hargsUpper hc argv)
      obtain ⟨o₄, hb₄, hpages₄, -⟩ := setupPageMaps_spec hT A₃.wellOwned A₃.root A₃.cr3
        hstackUpper (by decide : 16 ≠ 0) (by decide) A₃.rangeEnd fun addr hsame => by
          have hupper : 256 ≤ (addr.part 4).val := by
            rw [hsame.1 4 (by decide)]
            exact hstackUpper
          refine A₃.unmapped H₀ hT hM hupper (hstack addr hsame) fun f hf => ?_
          -- the argument page is the only one so far, and it is not on the stack
          rcases hpages f _ hf rfl with hf | hplace
          · exact hl.pages f _ hf rfl
          · have hpage := part_eq_of_place hplace 1
            have hlast : (argsFrameAddr.part 1).val = 511 := by decide
            have hfirst : stackFrameAddr.page.val = 494 := by decide
            have hlt := hsame.2.2
            have hval : addr.page.val = 511 := (congrArg Fin.val hpage).trans hlast
            omega
      rw [h] at hb₄
      refine ⟨T, o₄, hT, hl.fresh, A₃.build hT hb₄, fun f q hf hq => ?_⟩
      refine (hpages₄ f q hf hq).imp_left fun hf => ?_
      exact (hpages f q hf hq).resolve_left fun hf => hl.pages f q hf hq
    · rw [if_neg hok] at h
      exact absurd (congrArg Prod.fst h) hok
  · simp only [if_neg hload] at h
    exact absurd (congrArg Prod.fst h) hload

/-- The address space is taken down. -/
theorem Alive.end_spec (A : Alive M T m₀ o₀ m o) (H₀ : WellOwned M (m₀.store o₀)) (hT : T ≠ M)
    (hfresh : m₀.memoryManager.getBit T = false) (kernelPML4 : Nat) {err : Error}
    (h : m.executeFileEnd kernelPML4 = (err, m')) :
    err = .kSuccess ∧ (∀ f, m'.memoryManager.getBit f = m₀.memoryManager.getBit f) ∧
      (∃ l, m'.freed = l ++ m₀.freed ∧ l.Nodup ∧ ∀ f ∈ l, m₀.memoryManager.getBit f = false) ∧
      ∀ f place, o₀ f = some place → m'.mem f = m₀.mem f := by
  have hnone (f : Nat) (p : List (Fin 512)) : o₀ f ≠ some (T, p) := fun hf =>
    H₀.ne_of_free hfresh (H₀.forest.root_mem hf) rfl
  have hzero : ∀ l, l ≤ 3 → (LinearAddress4Level.ofValue 0xffff800000000000).part l = 0 := by
    decide
  obtain ⟨hok, o₁, hc, hempty⟩ := cleanPageMap_spec hT hzero 3 A.wellOwned A.root rfl
    fun _ => by decide
  rw [Machine.executeFileEnd, Machine.cleanPageMaps, A.cr3] at h
  simp only [Nat.reduceAdd] at hok hc hempty
  generalize Machine.cleanPageMap (.ofValue 0xffff800000000000) 4 T m = cleaned at h hok hc hempty
  obtain ⟨err₁, m₁⟩ := cleaned
  simp only at hok hc hempty
  simp only [hok, if_true, Machine.freePML4, Machine.freePageMap, hc.cr3, A.cr3, Prod.mk.injEq] at h
  obtain ⟨herr, rfl⟩ := h
  have H₁ := hc.shrinks.wellOwned hT A.wellOwned
  have hkid (i : Fin 512) : (m₁.store o₁).kid M T i = none := by
    by_cases hi : 256 ≤ i.val
    · exact kid_of_absent (hempty i hi)
    · rw [kid_of_owner hc.node, if_neg fun howns => hi (howns.2.1 rfl)]
  obtain ⟨l, hl, hnodup, hfreed, -⟩ := hc.shrinks.freed hT A.wellOwned
  have hframe : Frame T (m₀.store o₀) { m₁.store o₁ with
      allocated := Function.update (m₁.store o₁).allocated T false
      owner := Function.update o₁ T none
      freed := T :: m₁.freed } :=
    A.frame.trans ((hc.shrinks.frame hT A.wellOwned).trans (.removeRoot hc.node))
  refine ⟨herr.symm, fun f => ?_, ⟨T :: l, ?_, .cons (fun hmem => ?_) hnodup, fun f hf => ?_⟩,
    fun f place hf => ?_⟩
  · -- `T` owns nothing at the beginning and nothing at the end, so the rest is all there is
    have hforeign := (hframe f).1
    have hall : Foreign T (m₀.store o₀) f ↔ m₀.memoryManager.getBit f = true :=
      and_iff_left (hnone f)
    rw [hall] at hforeign
    rw [← Bool.coe_iff_coe, ← hforeign, getBit_free_one]
    refine (and_iff_left fun p hf => ?_).symm
    by_cases hfT : f = T
    · simp only [hfT, Function.update_self] at hf
      cases hf
    · simp only [Function.update_of_ne hfT] at hf
      obtain ⟨rfl, -⟩ := H₁.forest.eq_root hkid hf
      exact hfT rfl
  · have hl' : m₁.freed = l ++ m₀.freed := hl.trans (congrArg (l ++ ·) A.freed)
    simp only [hl', List.cons_append]
  · exact absurd (hc.node.symm.trans (hfreed T hmem).1) (Option.some_ne_none _)
  · have howner : ∃ p, o f = some (T, p) := by
      rcases List.mem_cons.mp hf with rfl | hf
      · exact ⟨[], A.root⟩
      · exact (hfreed f hf).2
    obtain ⟨p, hp⟩ := howner
    rw [← Bool.not_eq_true]
    intro hbit
    exact ((A.frame f).1.mpr ⟨hbit, hnone f⟩).2 p hp
  · obtain ⟨r, p⟩ := place
    refine (hframe.other H₀ hf ?_).1
    rintro rfl
    exact hnone f p hf

open Instances in
/-- A task that may ask for the page after the image. -/
def demandTask : PagingTask :=
  { noTask with dpagingBegin := 0xffff800000001000, dpagingEnd := 0xffff800000002000 }

open Instances in
/-- The faults of an application at a page on demand and at its image. -/
def imageEvents : List ExecuteFile.Event :=
  [.fault demandTask { imageAddr 0 with page := 1 } true true, .store { imageAddr 0 with page := 1 } 7,
    .fault demandTask (imageAddr 0) true true]

end MikanOS
