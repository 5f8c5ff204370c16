import MikanOS.Paging.CopyPageMaps

/-! # Loading a cached application -/

namespace MikanOS

open PageMapEntry Memory Store

variable {M T : Nat} {m m' : Machine} {o : Nat → Option Place} {addr : LinearAddress4Level}

/-- What `LoadApp` leaves behind for an application in `app_loads`: its address space `T` is a new
tree beside the others, without pages of its own, in which all pages of the cached tree are mapped. -/
structure Loaded (M T : Nat) (m : Machine) (o : Nat → Option Place) (m' : Machine)
    (o' : Nat → Option Place) : Prop where
  ne : T ≠ M
  fresh : m.memoryManager.getBit T = false
  wellOwned : WellOwned M (m'.store o')
  root : o' T = some (T, [])
  pages : ∀ f p, o' f = some (T, p) → p.length ≠ 4
  frame : Frame T (m.store o) (m'.store o')
  cr3 : m'.cr3 = T
  rangeBegin : m'.memoryManager.rangeBegin = m.memoryManager.rangeBegin
  rangeEnd : m'.memoryManager.rangeEnd = m.memoryManager.rangeEnd
  freed : m'.freed = m.freed
  mapped : ∀ addr, 256 ≤ (addr.part 4).val → (walk m.mem addr 4 M).isSome →
    (walk m'.mem addr 4 T).isSome
  lower : m.memoryManager.getBit m.cr3 = true → ∀ i : Fin 512, i.val < 256 →
    m'.mem T i = m.mem m.cr3 i

/-- `SetupPML4` makes the root of a new tree. -/
theorem setupPML4_spec (H : WellOwned M (m.store o)) (hok : m.setupPML4.1.error = .kSuccess) :
    ∃ c m', m.setupPML4 = (⟨c, .kSuccess⟩, m') ∧ m.memoryManager.getBit c = false ∧
      WellOwned M (m'.store (Function.update o c (some (c, [])))) ∧
      Frame c (m.store o) (m'.store (Function.update o c (some (c, [])))) ∧
      (∀ i : Fin 512, m'.mem c i = if i.val < 256 ∧ m.cr3 ≠ c then m.mem m.cr3 i else 0) ∧
      m'.cr3 = c ∧ m'.memoryManager.rangeBegin = m.memoryManager.rangeBegin ∧
      m'.memoryManager.rangeEnd = m.memoryManager.rangeEnd ∧ m'.freed = m.freed := by
  rw [Machine.setupPML4] at hok ⊢
  rcases newPageMap_spec m with ⟨c, m₁, hnew, hc, -, -, hmem₁, hmgr₁, hcr3₁, hfreed₁⟩ | ⟨hnew, -⟩
  · rw [hnew]
    simp only [if_true, Machine.setPage]
    generalize hlower : (fun i : Fin 512 => if i.val < 256 then m₁.mem m₁.cr3 i else m₁.mem c i) =
      lower
    have hstore : (⟨m₁.mem.setPage c lower, m₁.memoryManager, c, m₁.freed⟩ : Machine).store
        (Function.update o c (some (c, []))) = {
          mem := (m.store o).mem.setPage c lower
          allocated := Function.update (m.store o).allocated c true
          owner := Function.update (m.store o).owner c (some (c, []))
          freed := (m.store o).freed } := by
      rw [Machine.store, hmem₁, hmgr₁, hfreed₁, getBit_markAllocated_one, setPage_setPage]
    have hentry (i : Fin 512) : lower i =
        if i.val < 256 ∧ m.cr3 ≠ c then m.mem m.cr3 i else 0 := by
      rw [← hlower, hmem₁, hcr3₁]
      by_cases hcr3 : m.cr3 = c
      · simp [hcr3]
      · simp [setPage_of_ne _ hcr3, hcr3]
    refine ⟨c, _, rfl, hc, ?_, ?_, fun i => by simp [hentry], rfl, by simp [hmgr₁],
      by simp [hmgr₁], hfreed₁⟩
    · rw [hstore]
      exact H.addRoot hc fun i hi => by rw [hentry, if_neg (by omega)]
    · rw [hstore]
      exact .addRoot hc lower
  · rw [hnew] at hok
    cases hok

theorem loadApp_spec (H : WellOwned M (m.store o)) (hM : o M = some (M, []))
    (hend : m.memoryManager.rangeEnd ≤ 2 ^ 40) (hok : (m.loadApp M).1.error = .kSuccess) :
    ∃ o', Loaded M (m.loadApp M).1.value m o (m.loadApp M).2 o' := by
  have hsetup : m.setupPML4.1.error = .kSuccess := by
    rw [Machine.loadApp] at hok
    by_contra hne
    simp only [hne, if_false] at hok
  obtain ⟨c, m₁, hsetup, hc, H₁, hframe₁, hmem₁, hcr3₁, hbegin₁, hend₁, hfreed₁⟩ :=
    setupPML4_spec H hsetup
  rw [Machine.loadApp, hsetup] at hok ⊢
  simp only [if_true] at hok ⊢
  have hMc : M ≠ c := H.ne_of_free hc hM
  have hempty (i : Fin 512) (hi : 256 ≤ i.val) : (m₁.mem c i).present = false := by
    rw [hmem₁, if_neg (by omega), present_zero]
  obtain ⟨o', hcopies, hmapped⟩ := copyPageMaps_spec hMc.symm 3 H₁ (Function.update_self ..)
    ((Function.update_of_ne hMc ..).trans hM) rfl (fun _ => Nat.le_refl 256) hempty
    (by rw [hend₁]; exact hend)
  simp only [Nat.reduceAdd] at hcopies hmapped
  generalize Machine.copyPageMaps 4 c M 256 m₁ = copied at hok hcopies hmapped ⊢
  have hroot := hcopies.grows.owner hMc.symm H₁ (Function.update_self ..)
  have hpages (f : Nat) (p : List (Fin 512)) (hf : o' f = some (c, p)) : p.length ≠ 4 := by
    rintro hp
    have hf₁ := hcopies.pages f p hf hp
    by_cases hfc : f = c
    · rw [hfc, Function.update_self] at hf₁
      cases hf₁
      cases hp
    · rw [Function.update_of_ne hfc] at hf₁
      exact H.ne_of_free hc (H.forest.root_mem hf₁) rfl
  refine ⟨o', hMc.symm, hc, hcopies.grows.wellOwned hMc.symm H₁, hroot, hpages,
    hframe₁.trans hcopies.grows.frame, hcopies.cr3.trans hcr3₁, hcopies.rangeBegin.trans hbegin₁,
    hcopies.rangeEnd.trans hend₁, hcopies.grows.freed.trans hfreed₁, fun addr haddr hw => ?_,
    fun hbit i hi => ?_⟩
  · refine hmapped hok addr haddr ?_
    rw [H.walk_congr (fun f q hf _ => (hframe₁.other H hf hMc).1) hM rfl fun _ => haddr]
    exact hw
  · have hsame := hcopies.grows.entry hMc.symm H₁ (i := i) (Function.update_self ..)
      (Nat.zero_lt_succ 2) fun ht => absurd (ht rfl) (by omega)
    have hne : m.cr3 ≠ c := by
      rintro h
      rw [h, hc] at hbit
      cases hbit
    exact (hsame.trans (hmem₁ i)).trans (if_pos ⟨hi, hne⟩)

/-! ## A cached application of one page -/

/-- The page at 0xffff800000000000 is in frame 5, the tables above it in the frames 1 to 4. -/
def imageMemory : Memory := fun f i =>
  if f = 1 ∧ i = 256 then 0x2007
  else if f = 2 ∧ i = 0 then 0x3007
  else if f = 3 ∧ i = 0 then 0x4007
  else if f = 4 ∧ i = 0 then 0x5007
  else if f = 5 ∧ i = 0 then 0x41
  else 0

def imageOwner (f : Nat) : Option Place :=
  if f = 1 then some (1, [])
  else if f = 2 then some (1, [256])
  else if f = 3 then some (1, [0, 256])
  else if f = 4 then some (1, [0, 0, 256])
  else if f = 5 then some (1, [0, 0, 0, 256])
  else none

/-- The frames up to 5 are in use, and frame 0 is the PML4 of the kernel. -/
def imageMachine : Machine where
  mem := imageMemory
  memoryManager := {
    allocMap := fun line => if line = 0 then 0x3f else 0
    rangeBegin := 1
    rangeEnd := 64 }
  cr3 := 0
  freed := []

theorem imageOwner_cases {f r : Nat} {p : List (Fin 512)} (h : imageOwner f = some (r, p)) :
    r = 1 ∧ (f = 1 ∧ p = [] ∨ f = 2 ∧ p = [256] ∨ f = 3 ∧ p = [0, 256] ∨
      f = 4 ∧ p = [0, 0, 256] ∨ f = 5 ∧ p = [0, 0, 0, 256]) := by
  simp only [imageOwner] at h
  repeat' split at h
  all_goals simp_all

/-- The frames that the tables own. -/
theorem imageMachine_kid :
    (∀ i, (imageMachine.store imageOwner).kid 1 1 i = if i = 256 then some 2 else none) ∧
    (∀ i, (imageMachine.store imageOwner).kid 1 2 i = if i = 0 then some 3 else none) ∧
    (∀ i, (imageMachine.store imageOwner).kid 1 3 i = if i = 0 then some 4 else none) ∧
    (∀ i, (imageMachine.store imageOwner).kid 1 4 i = if i = 0 then some 5 else none) ∧
    ∀ i, (imageMachine.store imageOwner).kid 1 5 i = none := by decide +kernel

theorem imageMachine_wellOwned : WellOwned 1 (imageMachine.store imageOwner) := by
  obtain ⟨h1, h2, h3, h4, h5⟩ := imageMachine_kid
  refine ⟨⟨fun n r hn => ?_, fun n r p i c hn hkid => ?_, fun c r i p hc => ?_⟩, fun f hf => ?_,
    fun n r p i hn hp _ => ?_, fun n r p i hn hp => ?_⟩
  · obtain ⟨rfl, ⟨rfl, -⟩ | ⟨-, hp⟩ | ⟨-, hp⟩ | ⟨-, hp⟩ | ⟨-, hp⟩⟩ := imageOwner_cases hn
    · rfl
    all_goals cases hp
  · obtain ⟨rfl, ⟨rfl, rfl⟩ | ⟨rfl, rfl⟩ | ⟨rfl, rfl⟩ | ⟨rfl, rfl⟩ | ⟨rfl, rfl⟩⟩ :=
      imageOwner_cases hn
    · rw [h1] at hkid
      split at hkid <;> cases hkid
      rename_i hi
      rw [hi]
      rfl
    · rw [h2] at hkid
      split at hkid <;> cases hkid
      rename_i hi
      rw [hi]
      rfl
    · rw [h3] at hkid
      split at hkid <;> cases hkid
      rename_i hi
      rw [hi]
      rfl
    · rw [h4] at hkid
      split at hkid <;> cases hkid
      rename_i hi
      rw [hi]
      rfl
    · rw [h5] at hkid
      cases hkid
  · obtain ⟨rfl, ⟨-, hp⟩ | ⟨rfl, hp⟩ | ⟨rfl, hp⟩ | ⟨rfl, hp⟩ | ⟨rfl, hp⟩⟩ := imageOwner_cases hc
    · cases hp
    · cases hp
      exact ⟨1, rfl, by rw [h1, if_pos rfl]⟩
    · cases hp
      exact ⟨2, rfl, by rw [h2, if_pos rfl]⟩
    · cases hp
      exact ⟨3, rfl, by rw [h3, if_pos rfl]⟩
    · cases hp
      exact ⟨4, rfl, by rw [h4, if_pos rfl]⟩
  · obtain ⟨⟨r, p⟩, hf⟩ := Option.ne_none_iff_exists'.mp hf
    obtain ⟨-, ⟨rfl, -⟩ | ⟨rfl, -⟩ | ⟨rfl, -⟩ | ⟨rfl, -⟩ | ⟨rfl, -⟩⟩ := imageOwner_cases hf
    all_goals decide
  · have htables : ∀ n, n = 1 ∨ n = 2 ∨ n = 3 → ∀ i, (imageMemory n i).hugePage = false ∧
        ((imageMemory n i).present = true →
          (imageMemory n i).user = true ∧ (imageMemory n i).writable = true) := by
      rintro n (rfl | rfl | rfl)
      all_goals decide +kernel
    obtain ⟨-, ⟨rfl, -⟩ | ⟨rfl, -⟩ | ⟨rfl, -⟩ | ⟨-, rfl⟩ | ⟨-, rfl⟩⟩ := imageOwner_cases hn
    · exact htables 1 (by decide) i
    · exact htables 2 (by decide) i
    · exact htables 3 (by decide) i
    all_goals exact absurd hp (by decide)
  · have hleaves : ∀ i, (imageMemory 4 i).present = true →
        (imageMemory 4 i).user = true ∧ (imageMemory 4 i).writable = true := by decide +kernel
    obtain ⟨-, ⟨-, rfl⟩ | ⟨-, rfl⟩ | ⟨-, rfl⟩ | ⟨rfl, -⟩ | ⟨-, rfl⟩⟩ := imageOwner_cases hn
    · cases hp
    · cases hp
    · cases hp
    · intro hpres
      obtain ⟨hu, hw⟩ := hleaves i hpres
      exact ⟨hu, fun h => absurd (hw.symm.trans h) (by decide)⟩
    · cases hp

end MikanOS
