import MikanOS.Paging.CopyOnWrite
import MikanOS.Library.Transition

/-! # Instances of one application

The instances of an application in `app_loads` share the pages of the cached tree until they store to
them. Each of them sees a memory of its own. -/

namespace MikanOS

open PageMapEntry LinearAddress4Level Memory Store

variable {M T c r : Nat} {m m' : Machine} {o o' : Nat → Option Place}
  {addr addr' : LinearAddress4Level} {t : Translation}

/-! ## User accesses -/

/-- A load in a tree does not fault where something is mapped. -/
theorem userLoad_eq {b : UInt8} (H : WellOwned M (m.store o)) (hroot : o m.cr3 = some (m.cr3, []))
    (haddr : 256 ≤ (addr.part 4).val) (hcanon : addr.Canonical)
    (hview : view m.mem addr m.cr3 = some b) : m.userLoad addr = .ok b := by
  obtain ⟨t, hw, rfl⟩ := Option.map_eq_some_iff.mp hview
  obtain ⟨huser, -⟩ := H.walk_owner hroot rfl (fun _ => haddr) hw
  simp [Machine.userLoad, Machine.userAccess, Machine.translate, hcanon, hw, huser, Except.map]

/-- A byte in a page of the tree is seen at its address only. -/
theorem setByteAt_spec (H : WellOwned M (m.store o)) (hroot : o T = some (T, []))
    (haddr : 256 ≤ (addr.part 4).val) (hcanon : addr.Canonical)
    (hw : walk m.mem addr 4 T = some t) (hwritable : t.writable = true) (b : UInt8) :
    Builds M T m o { m with mem := m.mem.setByteAt t.frame addr.offset b } o ∧
      ∀ addr' : LinearAddress4Level, 256 ≤ (addr'.part 4).val →
        walk (m.mem.setByteAt t.frame addr.offset b) addr' 4 T = walk m.mem addr' 4 T ∧
        (addr'.Canonical → view (m.mem.setByteAt t.frame addr.offset b) addr' T =
          if addr' = addr then some b else view m.mem addr' T) := by
  obtain ⟨-, howner⟩ := H.walk_owner hroot rfl (fun _ => haddr) hw
  rw [if_pos hwritable, List.append_nil] at howner
  refine ⟨⟨.single ?_, rfl, rfl, rfl⟩, fun addr' haddr' => ?_⟩
  · rw [Machine.store, setByteAt_eq_setPage]
    exact .write _ howner rfl
  · have hwalk : walk (m.mem.setByteAt t.frame addr.offset b) addr' 4 T = walk m.mem addr' 4 T := by
      refine H.walk_congr (fun f q hf hq => ?_) hroot rfl fun _ => haddr'
      rw [setByteAt_eq_setPage, setPage_of_ne]
      rintro rfl
      rw [howner] at hf
      cases hf
      exact absurd hq (Nat.not_le.mpr (Nat.lt_add_one 3))
    refine ⟨hwalk, fun hcanon' => ?_⟩
    rw [view, view, hwalk]
    cases hw' : walk m.mem addr' 4 T with
    | none =>
      rw [if_neg]
      · rfl
      · rintro rfl
        rw [hw] at hw'
        cases hw'
    | some t' =>
      obtain ⟨-, howner'⟩ := H.walk_owner hroot rfl (fun _ => haddr') hw'
      rw [List.append_nil] at howner'
      have hsame : t'.frame = t.frame ∧ addr'.offset = addr.offset ↔ addr' = addr := by
        constructor
        · rintro ⟨hframe, hoff⟩
          rw [hframe, howner] at howner'
          exact hcanon'.eq_of_place hcanon (Prod.mk.inj (Option.some.inj howner')).2.symm hoff
        · rintro rfl
          rw [hw] at hw'
          cases hw'
          exact ⟨rfl, rfl⟩
      simp only [Option.map_some, byte_setByteAt, hsame, apply_ite some]

theorem userStore_spec (H : WellOwned M (m.store o)) (hroot : o T = some (T, []))
    (hcr3 : m.cr3 = T) (haddr : 256 ≤ (addr.part 4).val) (hcanon : addr.Canonical)
    (hw : walk m.mem addr 4 T = some t) (hwritable : t.writable = true) (b : UInt8) :
    m.userStore addr b = .ok { m with mem := m.mem.setByteAt t.frame addr.offset b } := by
  obtain ⟨huser, -⟩ := H.walk_owner hroot rfl (fun _ => haddr) hw
  simp [Machine.userStore, Machine.userAccess, Machine.translate, hcanon, hcr3, hw, huser, hwritable,
    Except.map]

/-- The copy of a page cannot be seen. -/
theorem Copied.view (h : Copied M T c addr m o m') (H : WellOwned M (m.store o))
    (hroot : o T = some (T, [])) (haddr' : 256 ≤ (addr'.part 4).val) :
    view m'.mem addr' T = view m.mem addr' T := by
  rw [MikanOS.view, MikanOS.view]
  by_cases hplace : addr'.place 4 = addr.place 4
  · have hpart := part_eq_of_place hplace
    rw [walk_congr_part m'.mem hpart, walk_congr_part m.mem hpart, h.walk_self]
    have hsome : (walk m.mem addr 4 T).isSome := h.mapped
    obtain ⟨t, ht⟩ := Option.isSome_iff_exists.mp hsome
    rw [ht, Option.map_some, Option.map_some]
    exact congrArg some (byte_congr (h.contents t ht) _)
  · rw [h.walk_other addr' haddr' hplace]
    refine Option.map_congr fun t ht => byte_congr ?_ _
    obtain ⟨-, howner⟩ := H.walk_owner hroot rfl (fun _ => haddr') ht
    refine h.mem _ (H.ne_of_free h.fresh howner) fun q hq hf => ?_
    rw [(Prod.mk.inj (Option.some.inj (hf.symm.trans howner))).2, List.append_nil] at hq
    exact absurd hq (Nat.not_le.mpr (Nat.lt_add_one 3))

/-- A user store, with the page fault handled and the store made again. -/
def Machine.storeRetrying (m : Machine) (task : PagingTask) (addr : LinearAddress4Level) (b : UInt8) :
    Option Machine :=
  match m.userStore addr b with
  | .ok m => some m
  | .error (.pageFault errorCode) =>
    let (err, m) := m.handlePageFault task errorCode addr
    if err = .kSuccess then (m.userStore addr b).toOption else none
  | .error .generalProtection => none

theorem storeRetrying_spec (H : WellOwned M (m.store o)) (hT : T ≠ M) (hroot : o T = some (T, []))
    (hcr3 : m.cr3 = T) (hend : m.memoryManager.rangeEnd ≤ 2 ^ 40)
    (haddr : 256 ≤ (addr.part 4).val) (hcanon : addr.Canonical)
    (hmapped : (walk m.mem addr 4 T).isSome) (task : PagingTask) (b : UInt8) :
    (∃ m' o', m.storeRetrying task addr b = some m' ∧ Builds M T m o m' o' ∧
      ∀ addr' : LinearAddress4Level, addr'.Canonical → 256 ≤ (addr'.part 4).val →
        view m'.mem addr' T = if addr' = addr then some b else view m.mem addr' T) ∨
    (m.storeRetrying task addr b = none ∧
      ∀ f, m.memoryManager.rangeBegin ≤ f → f < m.memoryManager.rangeEnd →
        m.memoryManager.getBit f = true) := by
  obtain ⟨t, hw⟩ := Option.isSome_iff_exists.mp hmapped
  obtain ⟨huser, -⟩ := H.walk_owner hroot rfl (fun _ => haddr) hw
  cases hwritable : t.writable with
  | true =>
    have hstore := userStore_spec H hroot hcr3 haddr hcanon hw hwritable b
    obtain ⟨hbuilds, hview⟩ := setByteAt_spec H hroot haddr hcanon hw hwritable b
    exact .inl ⟨_, o, by rw [Machine.storeRetrying, hstore], hbuilds, fun addr' hcanon' haddr' =>
      (hview addr' haddr').2 hcanon'⟩
  | false =>
    have hfault : m.userStore addr b = .error (.pageFault 7) := by
      simp [Machine.userStore, Machine.userAccess, Machine.translate, hcanon, hcr3, hw, huser,
        hwritable, Except.map, pageFaultCode]
    have hhandle : m.handlePageFault task 7 addr = m.copyOnePage addr := rfl
    simp only [Machine.storeRetrying, hfault, hhandle]
    rcases copyOnePage_spec H hT hroot hcr3 hend haddr hw hwritable with
      ⟨c, m₁, hcopy, hcopied⟩ | ⟨hcopy, hfull⟩
    · have H₁ := hcopied.builds.grows.wellOwned hT H
      have hroot₁ := hcopied.builds.grows.owner hT H hroot
      have hstore := userStore_spec H₁ hroot₁ (hcopied.builds.cr3.trans hcr3) haddr hcanon
        hcopied.walk_self rfl b
      obtain ⟨hbuilds, hview⟩ := setByteAt_spec H₁ hroot₁ haddr hcanon hcopied.walk_self rfl b
      refine .inl ⟨_, _, ?_, hcopied.builds.trans hbuilds, fun addr' hcanon' haddr' => ?_⟩
      · rw [hcopy]
        simp [hstore, Except.toOption]
      · rw [(hview addr' haddr').2 hcanon', hcopied.view H hroot haddr']
    · refine .inr ⟨?_, hfull⟩
      rw [hcopy]
      rfl

/-! ## The system of the instances -/

namespace Instances

/-- An instance is known by its PML4. -/
inductive Event where
  | loadApp
  | load (pml4 : Nat) (addr : LinearAddress4Level)
  | store (pml4 : Nat) (addr : LinearAddress4Level) (b : UInt8)

structure State where
  m : Machine
  running : List Nat

/-- An address of the loaded image. -/
def InImage (M : Nat) (mem : Memory) (addr : LinearAddress4Level) : Prop :=
  addr.Canonical ∧ 256 ≤ (addr.part 4).val ∧ (walk mem addr 4 M).isSome

instance (M : Nat) (mem : Memory) (addr : LinearAddress4Level) : Decidable (InImage M mem addr) :=
  inferInstanceAs (Decidable (_ ∧ _ ∧ _))

/-- The machine with the address space of an instance. -/
def State.on (s : State) (pml4 : Nat) : Machine := { s.m with cr3 := pml4 }

/-- Instances are started from the kernel's address space, and load and store in their own. -/
def step (M kernelPML4 : Nat) (task : Nat → PagingTask) (s : State) : Event → Option State
  | .loadApp =>
    let (pml4, m) := (s.on kernelPML4).loadApp M
    if pml4.error = .kSuccess then some ⟨m, pml4.value :: s.running⟩ else none
  | .load pml4 addr =>
    if pml4 ∈ s.running ∧ InImage M s.m.mem addr then some { s with m := s.on pml4 } else none
  | .store pml4 addr b =>
    if pml4 ∈ s.running ∧ InImage M s.m.mem addr then
      ((s.on pml4).storeRetrying (task pml4) addr b).map fun m => { s with m }
    else none

def system (M kernelPML4 : Nat) (task : Nat → PagingTask) : Transition.System State Event :=
  ⟨step M kernelPML4 task⟩

/-- A byte that was stored for an instance. -/
structure Stored where
  pml4 : Nat
  addr : LinearAddress4Level
  byte : UInt8

def Event.stores : Event → List Stored
  | .loadApp | .load _ _ => []
  | .store pml4 addr b => [⟨pml4, addr, b⟩]

/-- The last store of an instance to an address. -/
def lastStore (stores : List Stored) (pml4 : Nat) (addr : LinearAddress4Level) : Option UInt8 :=
  (stores.reverse.find? fun st => st.pml4 = pml4 ∧ st.addr = addr).map Stored.byte

theorem lastStore_snoc (stores : List Stored) (st : Stored) :
    lastStore (stores ++ [st]) T addr =
      if st.pml4 = T ∧ st.addr = addr then some st.byte else lastStore stores T addr := by
  rw [lastStore, List.reverse_append, List.reverse_singleton, List.singleton_append, List.find?_cons]
  split <;> simp_all [lastStore]

/-- The trees are well-formed, the cached one is as it was, and every instance sees its own last
stores on top of the image. -/
structure Invariant (M : Nat) (m₀ : Machine) (o₀ : Nat → Option Place) (stores : List Stored)
    (s : State) (o : Nat → Option Place) : Prop where
  wellOwned : WellOwned M (s.m.store o)
  rangeEnd : s.m.memoryManager.rangeEnd ≤ 2 ^ 40
  cached : ∀ f p, o₀ f = some (M, p) → o f = some (M, p) ∧ s.m.mem f = m₀.mem f
  root : ∀ T ∈ s.running, T ≠ M ∧ o T = some (T, [])
  view : ∀ T ∈ s.running, ∀ addr, InImage M m₀.mem addr →
    view s.m.mem addr T = (lastStore stores T addr).or (view m₀.mem addr M)
  unborn : ∀ T, T ∉ s.running → ∀ addr, lastStore stores T addr = none

variable {kernelPML4 : Nat} {task : Nat → PagingTask} {m₀ : Machine} {o₀ : Nat → Option Place}
  {es : List Event} {stores stores' : List Stored} {s s' : State} {e : Event}

section

variable (H₀ : WellOwned M (m₀.store o₀)) (hM : o₀ M = some (M, []))

include H₀ hM

/-- The image is where it was. -/
theorem Invariant.inImage (I : Invariant M m₀ o₀ stores s o) :
    InImage M s.m.mem addr ↔ InImage M m₀.mem addr := by
  refine and_congr_right fun _ => and_congr_right fun haddr => ?_
  rw [H₀.walk_congr (fun f q hf _ => (I.cached f q hf).2) hM rfl fun _ => haddr]

omit H₀ hM in
/-- Every address of the image is mapped in every instance. -/
theorem Invariant.mapped (I : Invariant M m₀ o₀ stores s o) (hT : T ∈ s.running)
    (haddr : InImage M m₀.mem addr) : (walk s.m.mem addr 4 T).isSome := by
  rw [← isSome_view, I.view T hT addr haddr, Option.isSome_or, isSome_view, haddr.2.2, Bool.or_true]

omit H₀ hM in
/-- A step that builds up the tree of one instance. -/
theorem Invariant.build (I : Invariant M m₀ o₀ stores s o) (hT : T ∈ s.running)
    (hb : Builds M T (s.on T) o m' o') (hview : ∀ addr, InImage M m₀.mem addr →
      MikanOS.view m'.mem addr T = (lastStore stores' T addr).or (MikanOS.view m₀.mem addr M))
    (hother : ∀ T', T' ≠ T → ∀ addr, lastStore stores' T' addr = lastStore stores T' addr) :
    Invariant M m₀ o₀ stores' ⟨m', s.running⟩ o' := by
  obtain ⟨hTM, hroot⟩ := I.root T hT
  refine ⟨hb.grows.wellOwned hTM I.wellOwned, hb.rangeEnd ▸ I.rangeEnd, fun f p hf => ?_,
    fun T' hT' => ⟨(I.root T' hT').1, hb.grows.owner hTM I.wellOwned (I.root T' hT').2⟩,
    fun T' hT' addr haddr => ?_, fun T' hT' addr => ?_⟩
  · obtain ⟨howner, hmem⟩ := I.cached f p hf
    obtain ⟨hmem', howner'⟩ := hb.grows.frame.other I.wellOwned howner hTM.symm
    exact ⟨howner', hmem'.trans hmem⟩
  · by_cases hne : T' = T
    · subst hne
      exact hview addr haddr
    · rw [hother T' hne]
      exact (hb.grows.frame.view I.wellOwned hTM (I.root T' hT').2 hne haddr.2.1).trans
        (I.view T' hT' addr haddr)
  · have hne : T' ≠ T := by
      rintro rfl
      exact hT' hT
    rw [hother T' hne]
    exact I.unborn T' hT' addr

omit H₀ hM in
/-- A byte is stored to the page that the instance has of its own. -/
theorem Invariant.put {pml4 : Nat} {b : UInt8} (I : Invariant M m₀ o₀ stores s o)
    (hT : pml4 ∈ s.running) (hb : Builds M pml4 (s.on pml4) o m' o')
    (hview : ∀ addr' : LinearAddress4Level, addr'.Canonical → 256 ≤ (addr'.part 4).val →
      MikanOS.view m'.mem addr' pml4 = if addr' = addr then some b
        else MikanOS.view s.m.mem addr' pml4) :
    Invariant M m₀ o₀ (stores ++ [⟨pml4, addr, b⟩]) ⟨m', s.running⟩ o' := by
  refine I.build hT hb (fun addr' haddr' => ?_) fun T' hne addr' => ?_
  · rw [hview addr' haddr'.1 haddr'.2.1, lastStore_snoc]
    by_cases heq : addr' = addr
    · rw [if_pos heq, if_pos ⟨rfl, heq.symm⟩]
      rfl
    · rw [if_neg heq, if_neg fun h => heq h.2.symm]
      exact I.view pml4 hT addr' haddr'
  · rw [lastStore_snoc, if_neg fun h => hne h.1.symm]

/-- A new instance sees the image. -/
theorem Invariant.loadApp (I : Invariant M m₀ o₀ stores s o)
    (h : step M kernelPML4 task s .loadApp = some s') :
    ∃ o', Invariant M m₀ o₀ stores s' o' := by
  have hM' := (I.cached M [] hM).1
  simp only [step] at h
  split at h
  · rename_i hok
    cases h
    obtain ⟨o', hl⟩ := loadApp_spec (m := s.on kernelPML4) I.wellOwned hM' I.rangeEnd hok
    generalize (s.on kernelPML4).loadApp M = loaded at hl ⊢
    obtain ⟨⟨T, err⟩, m'⟩ := loaded
    simp only at hl ⊢
    have hTnone : o T = none := I.wellOwned.free hl.fresh
    have hne {T' : Nat} {p : List (Fin 512)} (hT' : o T' = some (T', p)) : T' ≠ T := by
      rintro rfl
      rw [hTnone] at hT'
      cases hT'
    have hcached (f : Nat) (p : List (Fin 512)) (hf : o₀ f = some (M, p)) :
        o' f = some (M, p) ∧ m'.mem f = m₀.mem f := by
      obtain ⟨howner, hmem⟩ := I.cached f p hf
      obtain ⟨hmem', howner'⟩ := hl.frame.other I.wellOwned howner hl.ne.symm
      exact ⟨howner', hmem'.trans hmem⟩
    refine ⟨o', hl.wellOwned, hl.rangeEnd ▸ I.rangeEnd, hcached, fun T' hT' => ?_,
      fun T' hT' addr haddr => ?_, fun T' hT' addr => ?_⟩
    · rcases List.mem_cons.mp hT' with rfl | hT'
      · exact ⟨hl.ne, hl.root⟩
      · obtain ⟨hTM, hroot⟩ := I.root T' hT'
        exact ⟨hTM, (hl.frame.other I.wellOwned hroot (hne hroot)).2⟩
    · rcases List.mem_cons.mp hT' with rfl | hT'
      · have hnot : T' ∉ s.running := fun hmem => hne (I.root T' hmem).2 rfl
        rw [I.unborn T' hnot addr, Option.none_or]
        -- the leaf of the new tree is shared, so it shows the page of the cached tree
        have himage := (I.inImage H₀ hM).mpr haddr
        obtain ⟨t, ht⟩ := Option.isSome_iff_exists.mp (hl.mapped addr haddr.2.1 himage.2.2)
        obtain ⟨t₀, ht₀⟩ := Option.isSome_iff_exists.mp haddr.2.2
        obtain ⟨-, howner⟩ := hl.wellOwned.walk_owner hl.root rfl (fun _ => haddr.2.1) ht
        obtain ⟨-, howner₀⟩ := H₀.walk_owner hM rfl (fun _ => haddr.2.1) ht₀
        rw [ite_self] at howner₀
        obtain ⟨howner₁, hmem⟩ := hcached _ _ howner₀
        have hw : t.writable = false := by
          by_contra hw
          rw [if_pos (Bool.not_eq_false _ ▸ hw)] at howner
          exact hl.pages _ _ howner rfl
        rw [hw] at howner
        have hframe : t.frame = t₀.frame := hl.wellOwned.forest.unique howner howner₁
        rw [MikanOS.view, MikanOS.view, ht, ht₀, Option.map_some, Option.map_some]
        exact congrArg some (byte_congr (by rw [hframe, hmem]) _)
      · obtain ⟨-, hroot⟩ := I.root T' hT'
        rw [← I.view T' hT' addr haddr]
        exact hl.frame.view I.wellOwned hl.ne hroot (hne hroot) haddr.2.1
    · exact I.unborn T' (fun h => hT' (List.mem_cons_of_mem T h)) addr
  · cases h

omit H₀ hM in
theorem Invariant.load {pml4 : Nat} (I : Invariant M m₀ o₀ stores s o)
    (h : step M kernelPML4 task s (.load pml4 addr) = some s') :
    Invariant M m₀ o₀ stores s' o := by
  simp only [step] at h
  split at h
  · cases h
    exact ⟨I.wellOwned, I.rangeEnd, I.cached, I.root, I.view, I.unborn⟩
  · cases h

theorem Invariant.store {pml4 : Nat} {b : UInt8} (I : Invariant M m₀ o₀ stores s o)
    (h : step M kernelPML4 task s (.store pml4 addr b) = some s') :
    ∃ o', Invariant M m₀ o₀ (stores ++ [⟨pml4, addr, b⟩]) s' o' := by
  simp only [step] at h
  split at h
  · rename_i hguard
    obtain ⟨hrunning, himage⟩ := hguard
    rw [I.inImage H₀ hM] at himage
    obtain ⟨m', hstore, h⟩ := Option.map_eq_some_iff.mp h
    cases h
    obtain ⟨hTM, hroot⟩ := I.root pml4 hrunning
    obtain ⟨m'', o', hstore', hbuilds, hview⟩ | ⟨hnone, -⟩ := storeRetrying_spec
      (m := s.on pml4) I.wellOwned hTM hroot rfl I.rangeEnd himage.2.1 himage.1
      (I.mapped hrunning himage) (task pml4) b
    · rw [hstore] at hstore'
      cases hstore'
      exact ⟨o', I.put hrunning hbuilds hview⟩
    · rw [hstore] at hnone
      cases hnone
  · cases h

theorem Invariant.step (I : Invariant M m₀ o₀ stores s o)
    (h : Instances.step M kernelPML4 task s e = some s') :
    ∃ o', Invariant M m₀ o₀ (stores ++ e.stores) s' o' := by
  cases e with
  | loadApp =>
    rw [Event.stores, List.append_nil]
    exact I.loadApp H₀ hM h
  | load pml4 addr =>
    rw [Event.stores, List.append_nil]
    exact ⟨o, I.load h⟩
  | store pml4 addr b => exact I.store H₀ hM h

omit hM in
theorem Invariant.init (hend : m₀.memoryManager.rangeEnd ≤ 2 ^ 40) :
    Invariant M m₀ o₀ [] ⟨m₀, []⟩ o₀ :=
  ⟨H₀, hend, fun _ _ hf => ⟨hf, rfl⟩, fun _ hT => absurd hT List.not_mem_nil,
    fun _ hT => absurd hT List.not_mem_nil, fun _ _ _ => rfl⟩

omit H₀ hM in
/-- What an instance loads. -/
theorem Invariant.userLoad (I : Invariant M m₀ o₀ stores s o) (hT : T ∈ s.running)
    (haddr : InImage M m₀.mem addr) : ∃ b, MikanOS.view m₀.mem addr M = some b ∧
      (s.on T).userLoad addr = .ok ((lastStore stores T addr).getD b) := by
  obtain ⟨b, hb⟩ : ∃ b, MikanOS.view m₀.mem addr M = some b := by
    rw [← Option.isSome_iff_exists, isSome_view]
    exact haddr.2.2
  refine ⟨b, hb, userLoad_eq I.wellOwned (I.root T hT).2 haddr.2.1 haddr.1 ?_⟩
  have hview := I.view T hT addr haddr
  rw [hb] at hview
  refine hview.trans ?_
  cases lastStore stores T addr <;> rfl

theorem Invariant.run (hend : m₀.memoryManager.rangeEnd ≤ 2 ^ 40)
    (h : (system M kernelPML4 task).Run ⟨m₀, []⟩ es s) :
    ∃ o, Invariant M m₀ o₀ (es.flatMap Event.stores) s o := by
  refine h.invariant_history (I := fun es s => ∃ o, Invariant M m₀ o₀ (es.flatMap Event.stores) s o)
    (P := fun _ _ => True) (fun es t e t' hI _ ht => ?_) ⟨o₀, .init H₀ hend⟩ fun _ _ _ _ _ _ => trivial
  obtain ⟨o, I⟩ := hI
  rw [List.flatMap_append, List.flatMap_singleton]
  exact I.step H₀ hM (show Instances.step M kernelPML4 task t e = some t' from ht)

/-- Whatever the instances do, each of them loads its own last store or else the byte of the image, a
store is made unless the memory is full, and the cached tree stays as it is. -/
theorem load_eq_lastStore (hend : m₀.memoryManager.rangeEnd ≤ 2 ^ 40)
    (h : (system M kernelPML4 task).Run ⟨m₀, []⟩ es s) :
    (∀ T ∈ s.running, ∀ addr, InImage M m₀.mem addr →
      (∃ b, MikanOS.view m₀.mem addr M = some b ∧
        (s.on T).userLoad addr = .ok ((lastStore (es.flatMap Event.stores) T addr).getD b)) ∧
      ∀ b, (Instances.step M kernelPML4 task s (.store T addr b)).isSome ∨
        ∀ f, s.m.memoryManager.rangeBegin ≤ f → f < s.m.memoryManager.rangeEnd →
          s.m.memoryManager.getBit f = true) ∧
    ∀ f p, o₀ f = some (M, p) → s.m.mem f = m₀.mem f := by
  obtain ⟨o, I⟩ := Invariant.run H₀ hM hend h
  refine ⟨fun T hT addr haddr => ⟨I.userLoad hT haddr, fun b => ?_⟩,
    fun f p hf => (I.cached f p hf).2⟩
  · rcases storeRetrying_spec (m := s.on T) I.wellOwned (I.root T hT).1 (I.root T hT).2 rfl
      I.rangeEnd haddr.2.1 haddr.1 (I.mapped hT haddr) (task T) b with
      ⟨m', o', hstore, -⟩ | ⟨-, hfull⟩
    · refine .inl ?_
      have himage := (I.inImage H₀ hM).mpr haddr
      simp only [Instances.step, if_pos (And.intro hT himage), hstore, Option.map_some,
        Option.isSome_some]
    · exact .inr hfull

end

/-- The first address of the image, and its last one. -/
def imageAddr (offset : Fin 4096) : LinearAddress4Level := ⟨offset, 0, 0, 0, 256, 65535⟩

def noTask : PagingTask := ⟨0, 0, [], fun _ => ⟨fun _ _ => [], fun _ _ => Nat.zero_le _⟩⟩

/-- Of two instances one stores to the image. -/
theorem load_eq_lastStore_image : ∃ s, (system 1 0 fun _ => noTask).Run ⟨imageMachine, []⟩
    [.loadApp, .loadApp, .store 6 (imageAddr 0) 7, .load 10 (imageAddr 0)] s ∧
    s.running = [10, 6] ∧ (s.on 6).userLoad (imageAddr 0) = .ok 7 ∧
    (s.on 10).userLoad (imageAddr 0) = .ok 0x41 := by
  have hexec : ((system 1 0 fun _ => noTask).exec ⟨imageMachine, []⟩
      [.loadApp, .loadApp, .store 6 (imageAddr 0) 7, .load 10 (imageAddr 0)]).map State.running =
        some [10, 6] := by decide +kernel
  obtain ⟨s, hs, hrunning⟩ := Option.map_eq_some_iff.mp hexec
  have hrun := Transition.System.run_of_exec hs
  have himage : InImage 1 imageMachine.mem (imageAddr 0) := by decide +kernel
  have hview : MikanOS.view imageMachine.mem (imageAddr 0) 1 = some 0x41 := by decide +kernel
  have hload := (load_eq_lastStore imageMachine_wellOwned rfl (by decide) hrun).1
  refine ⟨s, hrun, hrunning, ?_, ?_⟩
  · obtain ⟨⟨b, hb, h⟩, -⟩ := hload 6 (by simp [hrunning]) (imageAddr 0) himage
    exact h
  · obtain ⟨⟨b, hb, h⟩, -⟩ := hload 10 (by simp [hrunning]) (imageAddr 0) himage
    rw [hview] at hb
    cases hb
    exact h

end Instances

end MikanOS
