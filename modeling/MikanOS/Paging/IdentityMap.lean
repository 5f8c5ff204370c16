import MikanOS.Paging.LoadApp
import MikanOS.Paging.MissingPages

/-! # The identity map

The lower half of a PML4: `SetupIdentityPageTable` maps the first 64 GiB by huge pages of the supervisor,
and `SetupPML4` copies its entries into each address space. -/

namespace MikanOS

open PageMapEntry LinearAddress4Level Memory Store

variable {M T T' : Nat} {m m' : Machine} {o o' : Nat → Option Place} {addr : LinearAddress4Level}

/-- `kPageDirectoryCount`. -/
def kPageDirectoryCount : Nat := 64

def kPageSize4K : Nat := 4096
def kPageSize2M : Nat := 512 * kPageSize4K
def kPageSize1G : Nat := 512 * kPageSize2M

/-- The entry of a table in `SetupIdentityPageTable`: present and writable. -/
def identityTable (table : Nat) : PageMapEntry := BitVec.ofNat 64 (kPageSize4K * table) ||| 0x003#64

/-- The entry of a huge page in `SetupIdentityPageTable`. -/
def identityPage (iPdpt iPd : Nat) : PageMapEntry :=
  BitVec.ofNat 64 (iPdpt * kPageSize1G + iPd * kPageSize2M) ||| 0x083#64

/-- The index of a page directory in `pdp_table`. -/
def pdpIndex (iPdpt : Fin kPageDirectoryCount) : Fin 512 := iPdpt.castLE (by decide)

/-- One turn of the outer loop of `SetupIdentityPageTable`. -/
def Machine.setupPageDirectory (m : Machine) (pdpTable : Nat)
    (pageDirectory : Fin kPageDirectoryCount → Nat) (iPdpt : Fin kPageDirectoryCount) : Machine :=
  let m := m.setEntry pdpTable (pdpIndex iPdpt) (identityTable (pageDirectory iPdpt))
  (List.finRange 512).foldl (fun m iPd => m.setEntry (pageDirectory iPdpt) iPd (identityPage iPdpt iPd)) m

/-- `SetupIdentityPageTable`, up to `CR0`. The tables are static and zeroed. -/
def Machine.setupIdentityPageTable (m : Machine) (pml4Table pdpTable : Nat)
    (pageDirectory : Fin kPageDirectoryCount → Nat) : Machine :=
  let m := m.setEntry pml4Table 0 (identityTable pdpTable)
  let m := (List.finRange kPageDirectoryCount).foldl
    (fun m iPdpt => m.setupPageDirectory pdpTable pageDirectory iPdpt) m
  { m with cr3 := pml4Table }

/-! ## The entries -/

theorem getLsbD_identityTable (table : Nat) {j : Nat} (hj : j < 64) :
    (identityTable table).getLsbD j =
      (decide (12 ≤ j) && table.testBit (j - 12) || (0x003#64).getLsbD j) := by
  rw [identityTable, BitVec.getLsbD_or, BitVec.getLsbD_ofNat, kPageSize4K, show 4096 = 2 ^ 12 from rfl,
    Nat.testBit_two_pow_mul, decide_eq_true hj, Bool.true_and]

theorem present_identityTable (table : Nat) : (identityTable table).present = true :=
  getLsbD_identityTable table (by decide)

theorem user_identityTable (table : Nat) : (identityTable table).user = false :=
  getLsbD_identityTable table (by decide)

theorem hugePage_identityTable (table : Nat) : (identityTable table).hugePage = false :=
  getLsbD_identityTable table (by decide)

theorem pointer_identityTable {table : Nat} (h : table < 2 ^ 40) : (identityTable table).pointer = table := by
  apply Nat.eq_of_testBit_eq
  intro i
  rw [pointer, BitVec.testBit_toNat, BitVec.getLsbD_extractLsb']
  by_cases hi : i < 40
  · have hflags : (0x003#64).getLsbD (12 + i) = false := by
      have hlt : 3 < 2 ^ (12 + i) :=
        lt_of_lt_of_le (by decide) (Nat.pow_le_pow_right (by decide) (Nat.le_add_right 12 i))
      rw [BitVec.getLsbD_ofNat, Nat.testBit_lt_two_pow hlt, Bool.and_false]
    rw [getLsbD_identityTable table (by omega), hflags]
    simp [hi]
  · have : table < 2 ^ i := h.trans_le (Nat.pow_le_pow_right (by decide) (by omega))
    simp [hi, Nat.testBit_lt_two_pow this]

theorem present_identityPage (iPdpt iPd : Nat) : (identityPage iPdpt iPd).present = true := by
  rw [identityPage, PageMapEntry.present, BitVec.getLsbD_or, show (0x083#64).getLsbD 0 = true from rfl,
    Bool.or_true]

theorem hugePage_identityPage (iPdpt iPd : Nat) : (identityPage iPdpt iPd).hugePage = true := by
  rw [identityPage, PageMapEntry.hugePage, BitVec.getLsbD_or, show (0x083#64).getLsbD 7 = true from rfl,
    Bool.or_true]

/-! ## The tables -/

/-- The identity map in the lower half of the PML4 `T`. Its tables are the kernel's own: they are never
free, and no address space owns them. -/
structure IdentityMap (m : Machine) (o : Nat → Option Place) (T pdpTable : Nat)
    (pageDirectory : Fin kPageDirectoryCount → Nat) : Prop where
  pml4 : ∀ i : Fin 512, i.val < 256 → m.mem T i = if i = 0 then identityTable pdpTable else 0
  pdp : ∀ i : Fin 512, m.mem pdpTable i =
    if h : i.val < kPageDirectoryCount then identityTable (pageDirectory ⟨i, h⟩) else 0
  directory : ∀ iPdpt i, m.mem (pageDirectory iPdpt) i = identityPage iPdpt i
  static : ∀ f, (f = pdpTable ∨ ∃ iPdpt, f = pageDirectory iPdpt) →
    m.memoryManager.getBit f = true ∧ o f = none ∧ f < 2 ^ 40

/-- A loop that fills in entries of one table. -/
theorem foldl_setEntry (m : Machine) (table : Nat) (e : Fin 512 → PageMapEntry) (is : List (Fin 512)) :
    is.foldl (fun m i => m.setEntry table i (e i)) m =
      { m with mem := fun f j => if f = table ∧ j ∈ is then e j else m.mem f j } := by
  induction is generalizing m with
  | nil => simp
  | cons i is ih =>
    rw [List.foldl_cons, ih]
    congr 1
    funext f j
    rw [Machine.setEntry_mem, setEntry_apply]
    by_cases hf : f = table
    · by_cases hj : j = i
      · simp [hf, hj]
      · simp [hf, hj]
    · simp [hf]

theorem setupPageDirectory_eq (m : Machine) (pdpTable : Nat)
    (pageDirectory : Fin kPageDirectoryCount → Nat) (iPdpt : Fin kPageDirectoryCount) :
    m.setupPageDirectory pdpTable pageDirectory iPdpt = { m with
      mem := fun f j => if f = pageDirectory iPdpt then identityPage iPdpt j
        else if f = pdpTable ∧ j = pdpIndex iPdpt then identityTable (pageDirectory iPdpt)
        else m.mem f j } := by
  rw [Machine.setupPageDirectory, foldl_setEntry]
  congr 1
  funext f j
  rw [Machine.setEntry_mem, setEntry_apply]
  simp

theorem pdpIndex_injective : Function.Injective pdpIndex := Fin.castLE_injective (by decide)

/-- What the turns of the outer loop leave behind. -/
structure DirectoriesSet (pdpTable : Nat) (pageDirectory : Fin kPageDirectoryCount → Nat)
    (ks : List (Fin kPageDirectoryCount)) (m m' : Machine) : Prop where
  memoryManager : m'.memoryManager = m.memoryManager
  directory : ∀ k ∈ ks, ∀ j, m'.mem (pageDirectory k) j = identityPage k j
  pdp : ∀ k ∈ ks, m'.mem pdpTable (pdpIndex k) = identityTable (pageDirectory k)
  rest : ∀ j, (∀ k ∈ ks, j ≠ pdpIndex k) → m'.mem pdpTable j = m.mem pdpTable j
  other : ∀ f, f ≠ pdpTable → (∀ k ∈ ks, f ≠ pageDirectory k) → m'.mem f = m.mem f

theorem foldl_setupPageDirectory {pdpTable : Nat} {pageDirectory : Fin kPageDirectoryCount → Nat}
    (hinj : Function.Injective pageDirectory) (hpdp : ∀ k, pageDirectory k ≠ pdpTable)
    (ks : List (Fin kPageDirectoryCount)) (m : Machine) :
    DirectoriesSet pdpTable pageDirectory ks m
      (ks.foldl (fun m iPdpt => m.setupPageDirectory pdpTable pageDirectory iPdpt) m) := by
  induction ks generalizing m with
  | nil =>
    exact ⟨rfl, fun k hk => absurd hk List.not_mem_nil, fun k hk => absurd hk List.not_mem_nil,
      fun _ _ => rfl, fun _ _ _ => rfl⟩
  | cons k ks ih =>
    have D := ih (m.setupPageDirectory pdpTable pageDirectory k)
    have hturn := setupPageDirectory_eq m pdpTable pageDirectory k
    rw [List.foldl_cons]
    generalize m.setupPageDirectory pdpTable pageDirectory k = m₁ at D hturn
    generalize ks.foldl (fun m iPdpt => m.setupPageDirectory pdpTable pageDirectory iPdpt) m₁ = m' at D
    refine ⟨?_, fun k' hk' j => ?_, fun k' hk' => ?_, fun j hj => ?_, fun f hf hks => ?_⟩
    · rw [D.memoryManager, hturn]
    · by_cases hmem : k' ∈ ks
      · exact D.directory k' hmem j
      · -- the turns after this one are for other directories
        obtain rfl := (List.mem_cons.mp hk').resolve_right hmem
        rw [D.other _ (hpdp k') fun k'' hk'' heq => hmem (hinj heq ▸ hk''), hturn]
        exact if_pos rfl
    · by_cases hmem : k' ∈ ks
      · exact D.pdp k' hmem
      · obtain rfl := (List.mem_cons.mp hk').resolve_right hmem
        have hlater (k : Fin kPageDirectoryCount) (hk : k ∈ ks) : pdpIndex k' ≠ pdpIndex k := by
          intro heq
          rw [pdpIndex_injective heq] at hmem
          exact hmem hk
        rw [D.rest _ hlater, hturn]
        simp [(hpdp k').symm]
    · have hk := hj k List.mem_cons_self
      rw [D.rest j fun k' hk' => hj k' (List.mem_cons_of_mem k hk'), hturn]
      simp [(hpdp k).symm, hk]
    · have hk := hks k List.mem_cons_self
      rw [D.other f hf fun k' hk' => hks k' (List.mem_cons_of_mem k hk'), hturn]
      simp [hk, hf]

/-- `SetupIdentityPageTable` sets up the identity map in the kernel's PML4. -/
theorem identityMap_setupIdentityPageTable {pml4Table pdpTable : Nat}
    {pageDirectory : Fin kPageDirectoryCount → Nat} (hinj : Function.Injective pageDirectory)
    (hpdp : ∀ k, pageDirectory k ≠ pdpTable) (hpml4 : ∀ k, pml4Table ≠ pageDirectory k)
    (hne : pml4Table ≠ pdpTable) (hzero : ∀ j, m.mem pml4Table j = 0) (hzero' : ∀ j, m.mem pdpTable j = 0)
    (hstatic : ∀ f, (f = pdpTable ∨ ∃ iPdpt, f = pageDirectory iPdpt) →
      m.memoryManager.getBit f = true ∧ o f = none ∧ f < 2 ^ 40) :
    IdentityMap (m.setupIdentityPageTable pml4Table pdpTable pageDirectory) o pml4Table pdpTable
      pageDirectory := by
  have D := foldl_setupPageDirectory hinj hpdp (List.finRange kPageDirectoryCount)
    (m.setEntry pml4Table 0 (identityTable pdpTable))
  rw [Machine.setupIdentityPageTable]
  generalize List.foldl _ (m.setEntry pml4Table 0 (identityTable pdpTable))
    (List.finRange kPageDirectoryCount) = m' at D ⊢
  refine ⟨fun i _ => ?_, fun i => ?_, fun k i => D.directory k (List.mem_finRange k) i, fun f hf => ?_⟩
  · simp only
    rw [D.other _ hne fun k _ => hpml4 k, Machine.setEntry_mem, setEntry_apply, hzero]
    simp
  · simp only
    split
    · rename_i h
      exact D.pdp ⟨i, h⟩ (List.mem_finRange _)
    · rename_i h
      have hk (k : Fin kPageDirectoryCount) : i ≠ pdpIndex k := by
        rintro rfl
        exact h k.isLt
      rw [D.rest i fun k _ => hk k, Machine.setEntry_mem, setEntry_of_ne _ hne.symm, hzero']
  · simp only [D.memoryManager]
    exact hstatic f hf

namespace IdentityMap

variable {pdpTable : Nat} {pageDirectory : Fin kPageDirectoryCount → Nat}

/-- The kernel's tables are not touched by what happens in an address space. -/
theorem frame (I : IdentityMap m o T pdpTable pageDirectory) (h : Frame T' (m.store o) (m'.store o'))
    {f : Nat} (hf : f = pdpTable ∨ ∃ iPdpt, f = pageDirectory iPdpt) :
    m'.mem f = m.mem f ∧ m'.memoryManager.getBit f = true ∧ o' f = none := by
  obtain ⟨hbit, hnone, -⟩ := I.static f hf
  have hforeign : Foreign T' (m.store o) f := by
    refine ⟨hbit, fun q hq => ?_⟩
    rw [show o f = some (T', q) from hq] at hnone
    cases hnone
  obtain ⟨hmem, howner⟩ := (h f).2 hforeign
  exact ⟨hmem, ((h f).1.mpr hforeign).1, howner.trans hnone⟩

theorem of_frame (I : IdentityMap m o T pdpTable pageDirectory) (h : Frame T' (m.store o) (m'.store o'))
    {T₁ : Nat} (hpml4 : ∀ i : Fin 512, i.val < 256 → m'.mem T₁ i = m.mem T i) :
    IdentityMap m' o' T₁ pdpTable pageDirectory where
  pml4 i hi := (hpml4 i hi).trans (I.pml4 i hi)
  pdp i := by
    rw [(I.frame h (.inl rfl)).1]
    exact I.pdp i
  directory iPdpt i := by
    rw [(I.frame h (.inr ⟨iPdpt, rfl⟩)).1]
    exact I.directory iPdpt i
  static f hf := by
    obtain ⟨-, hbit, hnone⟩ := I.frame h hf
    exact ⟨hbit, hnone, (I.static f hf).2.2⟩

/-- `LoadApp` starts an address space with the identity map of the current one. -/
theorem loaded (I : IdentityMap m o m.cr3 pdpTable pageDirectory) (h : Loaded M T m o m' o')
    (hbit : m.memoryManager.getBit m.cr3 = true) : IdentityMap m' o' T pdpTable pageDirectory :=
  I.of_frame h.frame (h.lower hbit)

/-- It stays while the address space is built up. -/
theorem builds (I : IdentityMap m o T pdpTable pageDirectory) (H : WellOwned M (m.store o)) (hT : T ≠ M)
    (hroot : o T = some (T, [])) (h : Builds M T m o m' o') : IdentityMap m' o' T pdpTable pageDirectory := by
  refine I.of_frame h.grows.frame fun i hi => ?_
  exact h.grows.entry hT H hroot (Nat.zero_lt_succ 2) fun ht => absurd (ht rfl) (by omega)

end IdentityMap

end MikanOS
