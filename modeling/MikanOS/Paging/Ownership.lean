import MikanOS.Library.Forest
import MikanOS.Paging.PageMap

/-! # Who owns a frame

A frame that a page map refers to belongs to one address space or is only shared by it, and the code
has just the writable bit of the entry to tell. Here each frame has an owner: the PML4 of the tree it
belongs to and its place there. The leaves of the cached tree `M` own their pages; a leaf of another
tree owns its page if it is writable, and otherwise refers to the page of `M` at the same place. -/

namespace MikanOS

open OwnedForest PageMapEntry Memory

/-- The PML4 of a tree, and the indices on the way down from it, the last one first. -/
abbrev Place := Nat × List (Fin 512)

/-- The lower half of a PML4 is not part of its tree. -/
def Tracked (p : List (Fin 512)) (i : Fin 512) : Prop := p = [] → 256 ≤ i.val

instance : Decidable (Tracked p i) := inferInstanceAs (Decidable (_ → _))

theorem Tracked.cons : Tracked (j :: p) i := fun h => absurd h (List.cons_ne_nil _ _)

/-- Whether the table at a place owns what its entry `e` at index `i` points to. -/
def Owns (M : Nat) (place : Place) (i : Fin 512) (e : PageMapEntry) : Prop :=
  e.present = true ∧ Tracked place.2 i ∧ place.2.length ≤ 3 ∧
    (place.2.length = 3 → e.writable = true ∨ place.1 = M)

instance : Decidable (Owns M place i e) := inferInstanceAs (Decidable (_ ∧ _))

/-- The frames of the machine with their owners. -/
structure Store where
  mem : Memory
  allocated : Nat → Bool
  owner : Nat → Option Place
  freed : List Nat

/-- A machine under some ownership. -/
abbrev Machine.store (m : Machine) (owner : Nat → Option Place) : Store :=
  ⟨m.mem, m.memoryManager.getBit, owner, m.freed⟩

namespace Store

/-- The frame that a frame owns through its entry at index `i`. -/
def kid (M : Nat) (s : Store) (n : Nat) (i : Fin 512) : Option Nat :=
  (s.owner n).bind fun place =>
    if Owns M place i (s.mem n i) then some (s.mem n i).pointer else none

/-- The trees of the store are well-formed. -/
structure WellOwned (M : Nat) (s : Store) : Prop where
  forest : Forest (s.kid M) s.owner
  allocated : ∀ f, s.owner f ≠ none → s.allocated f = true
  table : ∀ n r p i, s.owner n = some (r, p) → p.length < 3 → Tracked p i →
    (s.mem n i).hugePage = false ∧
      ((s.mem n i).present = true → (s.mem n i).user = true ∧ (s.mem n i).writable = true)
  leaf : ∀ n r p i, s.owner n = some (r, p) → p.length = 3 → (s.mem n i).present = true →
    (s.mem n i).user = true ∧
      ((s.mem n i).writable = false → s.owner (s.mem n i).pointer = some (M, i :: p))

/-- What building up the tree of `T` consists of: a slot that owns nothing gets a frame of its own,
a leaf shares the page of the cached tree at its place, a page of the tree is written. -/
inductive Grow (M T : Nat) (s : Store) : Store → Prop
  | adopt {n c : Nat} {p : List (Fin 512)} {i : Fin 512} {e : PageMapEntry}
      {page : Fin 512 → PageMapEntry} (hn : s.owner n = some (T, p)) (hslot : s.kid M n i = none)
      (hc : s.allocated c = false) (howns : Owns M (T, p) i e) (hptr : e.pointer = c)
      (huser : e.user = true) (htable : p.length < 3 → e.writable = true ∧ e.hugePage = false ∧
        page = fun _ => 0) :
      Grow M T s {
        mem := (s.mem.setPage c page).setEntry n i e
        allocated := Function.update s.allocated c true
        owner := Function.update s.owner c (some (T, i :: p))
        freed := s.freed }
  | share {n : Nat} {p : List (Fin 512)} {i : Fin 512} {e : PageMapEntry}
      (hn : s.owner n = some (T, p)) (hp : p.length = 3) (hslot : (s.mem n i).present = false)
      (hM : s.owner e.pointer = some (M, i :: p)) (hpresent : e.present = true)
      (huser : e.user = true) (hw : e.writable = false) :
      Grow M T s { s with mem := s.mem.setEntry n i e }
  | write {f : Nat} {p : List (Fin 512)} (page : Fin 512 → PageMapEntry)
      (hf : s.owner f = some (T, p)) (hp : p.length = 4) :
      Grow M T s { s with mem := s.mem.setPage f page }

/-- What taking it down consists of. -/
inductive Shrink (M T : Nat) (s : Store) : Store → Prop
  | unshare {n : Nat} {p : List (Fin 512)} {i : Fin 512} (hn : s.owner n = some (T, p))
      (hp : p.length = 3) (hslot : s.kid M n i = none) :
      Shrink M T s { s with mem := s.mem.setEntry n i 0 }
  | release {n c : Nat} {p : List (Fin 512)} {i : Fin 512} (hn : s.owner n = some (T, p))
      (hslot : s.kid M n i = some c) (hleaf : ∀ j, s.kid M c j = none) :
      Shrink M T s {
        mem := s.mem.setEntry n i 0
        allocated := Function.update s.allocated c false
        owner := Function.update s.owner c none
        freed := c :: s.freed }

variable {M T n c r : Nat} {p : List (Fin 512)} {i : Fin 512} {s s' : Store}

theorem kid_of_owner (h : s.owner n = some place) :
    s.kid M n i = if Owns M place i (s.mem n i) then some (s.mem n i).pointer else none := by
  rw [kid, h, Option.bind_some]

theorem kid_of_not_owned (h : s.owner n = none) : s.kid M n i = none := by
  rw [kid, h, Option.bind_none]

theorem kid_congr (ho : s'.owner n = s.owner n) (hm : s'.mem n i = s.mem n i) :
    s'.kid M n i = s.kid M n i := by
  rw [kid, kid, ho, hm]

/-- Pages have no entries. -/
theorem kid_of_page (h : s.owner n = some (r, p)) (hp : p.length = 4) : s.kid M n i = none := by
  rw [kid_of_owner h, if_neg]
  rintro ⟨-, -, hle, -⟩
  simp only at hle
  omega

theorem kid_of_absent (h : (s.mem n i).present = false) : s.kid M n i = none := by
  cases ho : s.owner n with
  | none => exact kid_of_not_owned ho
  | some place =>
    rw [kid_of_owner ho, if_neg]
    rintro ⟨hp, -⟩
    rw [h] at hp
    cases hp

theorem kid_of_shared (hT : T ≠ M) (hn : s.owner n = some (T, p)) (hp : p.length = 3)
    (hw : (s.mem n i).writable = false) : s.kid M n i = none := by
  rw [kid_of_owner hn, if_neg]
  rintro ⟨-, -, -, h⟩
  rcases h hp with h | h
  · rw [hw] at h
    cases h
  · exact hT h

namespace WellOwned

theorem free (H : WellOwned M s) (hc : s.allocated c = false) : s.owner c = none := by
  cases h : s.owner c with
  | none => rfl
  | some place =>
    rw [H.allocated c (by rw [h]; exact Option.some_ne_none _)] at hc
    cases hc

theorem ne_of_free (H : WellOwned M s) (hc : s.allocated c = false)
    (hf : s.owner f = some place) : f ≠ c := by
  rintro rfl
  rw [H.free hc] at hf
  cases hf

theorem length_le (H : WellOwned M s) (h : s.owner n = some (r, p)) : p.length ≤ 4 := by
  cases p with
  | nil => exact Nat.zero_le _
  | cons i p =>
    obtain ⟨m, hm, hkid⟩ := H.forest.parent n r i p h
    rw [kid_of_owner hm] at hkid
    split at hkid
    · rename_i howns
      have := howns.2.2.1
      simp only [List.length_cons] at this ⊢
      omega
    · cases hkid

/-- A present entry of a table on the upper levels is owned. -/
theorem child (H : WellOwned M s) (hn : s.owner n = some (r, p)) (hp : p.length < 3)
    (ht : Tracked p i) (h : (s.mem n i).present = true) :
    s.owner (s.mem n i).pointer = some (r, i :: p) := by
  refine H.forest.child n r p i _ hn ?_
  rw [kid_of_owner hn, if_pos ⟨h, ht, by simp only; omega, fun h3 => by simp only at h3; omega⟩]

/-- So is a present entry on the last level that is writable. -/
theorem page (H : WellOwned M s) (hn : s.owner n = some (r, p)) (hp : p.length = 3)
    (h : (s.mem n i).present = true) (hw : (s.mem n i).writable = true ∨ r = M) :
    s.owner (s.mem n i).pointer = some (r, i :: p) := by
  refine H.forest.child n r p i _ hn ?_
  rw [kid_of_owner hn, if_pos ⟨h, fun h0 => by simp [show p = [] from h0] at hp, by simp only; omega,
    fun _ => hw⟩]

end WellOwned

/-! ## The steps keep the trees well-formed -/

private theorem WellOwned.adopt (H : WellOwned M s) {e : PageMapEntry}
    {page : Fin 512 → PageMapEntry} (hn : s.owner n = some (T, p)) (hslot : s.kid M n i = none)
    (hc : s.allocated c = false) (howns : Owns M (T, p) i e) (hptr : e.pointer = c)
    (huser : e.user = true) (htable : p.length < 3 → e.writable = true ∧ e.hugePage = false ∧
      page = fun _ => 0) :
    WellOwned M {
      mem := (s.mem.setPage c page).setEntry n i e
      allocated := Function.update s.allocated c true
      owner := Function.update s.owner c (some (T, i :: p))
      freed := s.freed } := by
  have hfree : s.owner c = none := H.free hc
  have hnc : n ≠ c := H.ne_of_free hc hn
  have howner {m : Nat} (hm : m ≠ c) :
      Function.update s.owner c (some (T, i :: p)) m = s.owner m := Function.update_of_ne hm ..
  have hmem {m : Nat} (hm : m ≠ c) (j : Fin 512) :
      (s.mem.setPage c page).setEntry n i e m j = if m = n ∧ j = i then e else s.mem m j := by
    rw [setEntry_apply, setPage_of_ne _ hm]
  have hnew (hp : p.length < 3) (j : Fin 512) :
      (s.mem.setPage c page).setEntry n i e c j = 0 := by
    rw [setEntry_of_ne _ hnc.symm, setPage_self, (htable hp).2.2]
  refine ⟨?_, fun f hf => ?_, fun m r q j hm hq ht => ?_, fun m r q j hm hq hpres => ?_⟩
  · refine H.forest.adopt hn hslot hfree (fun j => kid_of_not_owned hfree) fun m j => ?_
    by_cases hm : m = c
    · subst hm
      rw [if_neg fun h => hnc h.1.symm, kid_of_not_owned hfree]
      by_cases hp : p.length < 3
      · exact kid_of_absent (by simp only [hnew hp, present_zero])
      · refine kid_of_page (Function.update_self ..) ?_
        have := howns.2.2.1
        simp only [List.length_cons] at this ⊢
        omega
    · split
      · rename_i h
        obtain ⟨rfl, rfl⟩ := h
        rw [kid_of_owner ((howner hm).trans hn)]
        simp only [hmem hm, and_self, if_true, if_pos howns, hptr]
      · rename_i h
        exact kid_congr (howner hm) (by simp only [hmem hm, if_neg h])
  · by_cases hfc : f = c
    · subst hfc
      exact Function.update_self ..
    · simp only [howner hfc] at hf
      exact (Function.update_of_ne hfc ..).trans (H.allocated f hf)
  · by_cases hmc : m = c
    · subst hmc
      simp only [Function.update_self, Option.some.injEq, Prod.mk.injEq] at hm
      obtain ⟨rfl, rfl⟩ := hm
      have hp : p.length < 3 := by
        simp only [List.length_cons] at hq
        omega
      simp only [hnew hp, hugePage_zero, present_zero, true_and]
      exact fun h => absurd h Bool.false_ne_true
    · simp only [howner hmc] at hm
      simp only [hmem hmc]
      split
      · rename_i h
        obtain ⟨rfl, rfl⟩ := h
        rw [hn] at hm
        cases hm
        exact ⟨(htable hq).2.1, fun _ => ⟨huser, (htable hq).1⟩⟩
      · exact H.table m r q j hm hq ht
  · by_cases hmc : m = c
    · subst hmc
      simp only [Function.update_self, Option.some.injEq, Prod.mk.injEq] at hm
      obtain ⟨rfl, rfl⟩ := hm
      have hp : p.length < 3 := by
        simp only [List.length_cons] at hq
        omega
      simp only [hnew hp, present_zero] at hpres
      cases hpres
    · simp only [howner hmc] at hm
      simp only [hmem hmc] at hpres ⊢
      split
      · rename_i h
        obtain ⟨rfl, rfl⟩ := h
        rw [hn] at hm
        cases hm
        refine ⟨huser, fun hw => ?_⟩
        rcases howns.2.2.2 hq with h | h
        · rw [hw] at h
          cases h
        · simp only at h
          rw [hptr, Function.update_self, h]
      · rename_i h
        rw [if_neg h] at hpres
        obtain ⟨hu, hshared⟩ := H.leaf m r q j hm hq hpres
        refine ⟨hu, fun hw => ?_⟩
        have hM := hshared hw
        exact (howner (H.ne_of_free hc hM)).trans hM

/-- A change within pages or at leaves that own nothing before and after it. -/
private theorem WellOwned.congr (H : WellOwned M s) {mem' : Memory}
    (htable : ∀ n r p, s.owner n = some (r, p) → p.length < 3 → mem' n = s.mem n)
    (hleaf : ∀ n r p i, s.owner n = some (r, p) → p.length = 3 → mem' n i = s.mem n i ∨
      s.kid M n i = none ∧ kid M { s with mem := mem' } n i = none ∧
        ((mem' n i).present = true → (mem' n i).user = true ∧
          s.owner (mem' n i).pointer = some (M, i :: p))) :
    WellOwned M { s with mem := mem' } := by
  refine ⟨H.forest.congr fun n hn => ?_, H.allocated, fun n r p i hn hp => ?_,
    fun n r p i hn hp => ?_⟩
  · obtain ⟨⟨r, p⟩, hn⟩ := Option.ne_none_iff_exists'.mp hn
    funext i
    rcases Nat.lt_trichotomy p.length 3 with hp | hp | hp
    · exact kid_congr rfl (congrFun (htable n r p hn hp) i)
    · rcases hleaf n r p i hn hp with h | ⟨h, h', -⟩
      · exact kid_congr rfl h
      · exact h'.trans h.symm
    · have hp4 : p.length = 4 := by
        have := H.length_le hn
        omega
      exact (kid_of_page (s := { s with mem := mem' }) hn hp4).trans (kid_of_page hn hp4).symm
  · simp only [htable n r p hn hp]
    exact H.table n r p i hn hp
  · intro hpres
    rcases hleaf n r p i hn hp with h | ⟨-, -, h⟩
    · simp only [h] at hpres ⊢
      exact H.leaf n r p i hn hp hpres
    · obtain ⟨hu, hM⟩ := h hpres
      exact ⟨hu, fun _ => hM⟩

/-- What a page holds is of no account. -/
theorem WellOwned.setPage (H : WellOwned M s) (page : Fin 512 → PageMapEntry)
    (hf : s.owner n = some (r, p)) (hp : p.length = 4) :
    WellOwned M { s with mem := s.mem.setPage n page } := by
  have hne {m q : _} (hm : s.owner m = some q) (hq : q.2.length ≤ 3) : m ≠ n := by
    rintro rfl
    rw [hf] at hm
    cases hm
    simp only at hq
    omega
  refine H.congr (fun m r q hm hq => setPage_of_ne _ (hne hm (Nat.le_of_lt hq)) page)
    fun m r q j hm hq => .inl ?_
  rw [setPage_of_ne _ (hne hm hq.le)]

theorem Grow.wellOwned (hT : T ≠ M) (h : Grow M T s s') (H : WellOwned M s) : WellOwned M s' := by
  cases h with
  | adopt hn hslot hc howns hptr huser htable =>
    exact H.adopt hn hslot hc howns hptr huser htable
  | @share n p i e hn hp hslot hM hpresent huser hw =>
    refine H.congr (fun m r q hm hq => setEntry_of_ne _ (fun h => ?_) i e) fun m r q j hm hq => ?_
    · subst h
      rw [hn] at hm
      cases hm
      omega
    · by_cases hmj : m = n ∧ j = i
      · obtain ⟨rfl, rfl⟩ := hmj
        refine .inr ⟨kid_of_absent hslot, kid_of_shared hT hn hp ?_, fun _ => ?_⟩
        · simp only [setEntry_self, hw]
        · rw [hn] at hm
          cases hm
          rw [setEntry_self]
          exact ⟨huser, hM⟩
      · exact .inl (by rw [setEntry_apply, if_neg hmj])
  | @write f p page hf hp => exact H.setPage page hf hp

theorem Shrink.wellOwned (hT : T ≠ M) (h : Shrink M T s s') (H : WellOwned M s) :
    WellOwned M s' := by
  cases h with
  | @unshare n p i hn hp hslot =>
    refine H.congr (fun m r q hm hq => setEntry_of_ne _ (fun h => ?_) i 0) fun m r q j hm hq => ?_
    · subst h
      rw [hn] at hm
      cases hm
      omega
    · by_cases hmj : m = n ∧ j = i
      · obtain ⟨rfl, rfl⟩ := hmj
        refine .inr ⟨hslot, kid_of_absent ?_, fun h => ?_⟩
        · simp only [setEntry_self, present_zero]
        · rw [setEntry_self] at h
          cases h
      · exact .inl (by rw [setEntry_apply, if_neg hmj])
  | @release n c p i hn hslot hleaf =>
    have hc : s.owner c = some (T, i :: p) := H.forest.child n T p i c hn hslot
    have howner {m : Nat} {place : Place} (hm : Function.update s.owner c none m = some place) :
        m ≠ c ∧ s.owner m = some place := by
      by_cases hmc : m = c
      · rw [hmc, Function.update_self] at hm
        cases hm
      · rw [Function.update_of_ne hmc] at hm
        exact ⟨hmc, hm⟩
    refine ⟨H.forest.release hn hslot hleaf fun m j => ?_, fun f hf => ?_,
      fun m r q j hm hq ht => ?_, fun m r q j hm hq hpres => ?_⟩
    · by_cases hmc : m = c
      · subst hmc
        refine (kid_of_not_owned (Function.update_self ..)).trans ?_
        rw [hleaf, ite_self]
      · split
        · rename_i h
          exact kid_of_absent (by simp only [setEntry_apply, if_pos h, present_zero])
        · rename_i h
          exact kid_congr (Function.update_of_ne hmc ..) (by simp only [setEntry_apply, if_neg h])
    · obtain ⟨place, hf⟩ := Option.ne_none_iff_exists'.mp hf
      obtain ⟨hfc, hf⟩ := howner hf
      refine (Function.update_of_ne hfc ..).trans (H.allocated f ?_)
      rw [hf]
      exact Option.some_ne_none _
    · simp only [setEntry_apply]
      split
      · simp only [hugePage_zero, present_zero, true_and]
        exact fun h => absurd h Bool.false_ne_true
      · exact H.table m r q j (howner hm).2 hq ht
    · simp only [setEntry_apply] at hpres ⊢
      split
      · rename_i h
        rw [if_pos h] at hpres
        cases hpres
      · rename_i h
        rw [if_neg h] at hpres
        obtain ⟨hu, hshared⟩ := H.leaf m r q j (howner hm).2 hq hpres
        refine ⟨hu, fun hw => ?_⟩
        -- a shared page belongs to the cached tree, the released one does not
        have hM := hshared hw
        rw [Function.update_of_ne fun h => ?_]
        · exact hM
        · rw [h, hc] at hM
          cases hM
          exact hT rfl

/-! ## Roots -/

/-- A new PML4 without entries in the upper half is a tree of its own. -/
theorem WellOwned.addRoot (H : WellOwned M s) (hc : s.allocated c = false)
    {page : Fin 512 → PageMapEntry} (hpage : ∀ i : Fin 512, 256 ≤ i.val → page i = 0) :
    WellOwned M {
      mem := s.mem.setPage c page
      allocated := Function.update s.allocated c true
      owner := Function.update s.owner c (some (c, []))
      freed := s.freed } := by
  have hfree : s.owner c = none := H.free hc
  have howner {m : Nat} (hm : m ≠ c) :
      Function.update s.owner c (some (c, [])) m = s.owner m := Function.update_of_ne hm ..
  refine ⟨(H.forest.addRoot hfree fun i => kid_of_not_owned hfree).congr fun m _ => ?_,
    fun f hf => ?_, fun m r q j hm hq ht => ?_, fun m r q j hm hq hpres => ?_⟩
  · funext j
    by_cases hm : m = c
    · subst hm
      rw [kid_of_owner (Function.update_self ..), kid_of_not_owned hfree, if_neg]
      rintro ⟨hpres, ht, -⟩
      simp only [setPage_self, hpage j (ht rfl), present_zero] at hpres
      cases hpres
    · exact kid_congr (howner hm) (by simp only [setPage_of_ne _ hm])
  · by_cases hfc : f = c
    · subst hfc
      exact Function.update_self ..
    · simp only [howner hfc] at hf
      exact (Function.update_of_ne hfc ..).trans (H.allocated f hf)
  · by_cases hmc : m = c
    · subst hmc
      simp only [Function.update_self, Option.some.injEq, Prod.mk.injEq] at hm
      obtain ⟨-, rfl⟩ := hm
      simp only [setPage_self, hpage j (ht rfl), hugePage_zero, present_zero, true_and]
      exact fun h => absurd h Bool.false_ne_true
    · simp only [howner hmc] at hm
      simp only [setPage_of_ne _ hmc]
      exact H.table m r q j hm hq ht
  · by_cases hmc : m = c
    · subst hmc
      simp only [Function.update_self, Option.some.injEq, Prod.mk.injEq] at hm
      obtain ⟨-, rfl⟩ := hm
      cases hq
    · simp only [howner hmc] at hm
      simp only [setPage_of_ne _ hmc] at hpres ⊢
      obtain ⟨hu, hshared⟩ := H.leaf m r q j hm hq hpres
      refine ⟨hu, fun hw => ?_⟩
      have hM := hshared hw
      exact (howner (H.ne_of_free hc hM)).trans hM

/-- A PML4 without entries in the upper half can be freed. -/
theorem WellOwned.removeRoot (H : WellOwned M s) (hT : T ≠ M) (hroot : s.owner T = some (T, []))
    (hkid : ∀ i, s.kid M T i = none) :
    WellOwned M { s with
      allocated := Function.update s.allocated T false
      owner := Function.update s.owner T none
      freed := T :: s.freed } := by
  have howner {m : Nat} {place : Place} (hm : Function.update s.owner T none m = some place) :
      m ≠ T ∧ s.owner m = some place := by
    by_cases hmT : m = T
    · rw [hmT, Function.update_self] at hm
      cases hm
    · rw [Function.update_of_ne hmT] at hm
      exact ⟨hmT, hm⟩
  refine ⟨(H.forest.removeRoot hroot hkid).congr fun m hm => ?_, fun f hf => ?_,
    fun m r q j hm hq ht => H.table m r q j (howner hm).2 hq ht, fun m r q j hm hq hpres => ?_⟩
  · obtain ⟨place, hm⟩ := Option.ne_none_iff_exists'.mp hm
    funext j
    exact kid_congr (Function.update_of_ne (howner hm).1 ..) rfl
  · obtain ⟨place, hf⟩ := Option.ne_none_iff_exists'.mp hf
    obtain ⟨hfT, hf⟩ := howner hf
    refine (Function.update_of_ne hfT ..).trans (H.allocated f ?_)
    rw [hf]
    exact Option.some_ne_none _
  · obtain ⟨hu, hshared⟩ := H.leaf m r q j (howner hm).2 hq hpres
    refine ⟨hu, fun hw => ?_⟩
    have hM := hshared hw
    refine (Function.update_of_ne ?_ ..).trans hM
    rintro h
    rw [h, hroot] at hM
    cases hM

end Store

end MikanOS
