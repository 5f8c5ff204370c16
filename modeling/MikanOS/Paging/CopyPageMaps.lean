import MikanOS.Paging.AddressSpace

/-! # The copy of a tree

`CopyPageMaps` builds a tree of its own for an application, with the pages of the cached tree as
shared leaves. -/

namespace MikanOS

open PageMapEntry Memory Relation Store

variable {M T n r : Nat} {p : List (Fin 512)} {i : Fin 512} {m m' m'' : Machine}
  {o o' o'' : Nat → Option Place} {addr : LinearAddress4Level}

/-- `m'` comes from `m` by building up the tree of `T`. -/
structure Builds (M T : Nat) (m : Machine) (o : Nat → Option Place) (m' : Machine)
    (o' : Nat → Option Place) : Prop where
  grows : Grows M T (m.store o) (m'.store o')
  cr3 : m'.cr3 = m.cr3
  rangeBegin : m'.memoryManager.rangeBegin = m.memoryManager.rangeBegin
  rangeEnd : m'.memoryManager.rangeEnd = m.memoryManager.rangeEnd

namespace Builds

theorem refl : Builds M T m o m o := ⟨.refl, rfl, rfl, rfl⟩

theorem trans (h : Builds M T m o m' o') (h' : Builds M T m' o' m'' o'') :
    Builds M T m o m'' o'' :=
  ⟨h.grows.trans h'.grows, h'.cr3.trans h.cr3, h'.rangeBegin.trans h.rangeBegin,
    h'.rangeEnd.trans h.rangeEnd⟩

end Builds

theorem forEntries_cons (body : Fin 512 → Machine → Error × Machine) (is : List (Fin 512)) :
    forEntries body (i :: is) m =
      if (body i m).1 = .kSuccess then forEntries body is (body i m).2 else body i m := rfl

/-- The loop rule: `I` holds with the indices still to come, and `E` where an error left it. -/
theorem forEntries_rule {I : List (Fin 512) → Machine → Prop} {E : Machine → Prop}
    (body : Fin 512 → Machine → Error × Machine) (hbody : ∀ i is m, I (i :: is) m →
      ((body i m).1 = .kSuccess → I is (body i m).2) ∧
        ((body i m).1 ≠ .kSuccess → E (body i m).2)) (is : List (Fin 512))
    (h : I is m) :
    ((forEntries body is m).1 = .kSuccess → I [] (forEntries body is m).2) ∧
      ((forEntries body is m).1 ≠ .kSuccess → E (forEntries body is m).2) := by
  induction is generalizing m with
  | nil => exact ⟨fun _ => h, fun h => absurd rfl h⟩
  | cons i is ih =>
    obtain ⟨hok, herr⟩ := hbody i is m h
    rw [forEntries_cons]
    split
    · rename_i hsuccess
      exact ih (hok hsuccess)
    · rename_i hne
      exact ⟨fun h => absurd h hne, fun _ => herr hne⟩

theorem mem_entriesFrom {start : Nat} : i ∈ entriesFrom start ↔ start ≤ i.val := by
  simp [entriesFrom]

theorem nodup_entriesFrom {start : Nat} : (entriesFrom start).Nodup :=
  (List.nodup_finRange 512).filter _

/-- `NewPageMap` takes a free frame of the range, or there is none. -/
theorem newPageMap_spec (m : Machine) :
    (∃ c m', m.newPageMap = (⟨c, .kSuccess⟩, m') ∧ m.memoryManager.getBit c = false ∧
      m.memoryManager.rangeBegin ≤ c ∧ c < m.memoryManager.rangeEnd ∧
      m'.mem = m.mem.setPage c (fun _ => 0) ∧
      m'.memoryManager = m.memoryManager.markAllocated c 1 ∧ m'.cr3 = m.cr3 ∧
      m'.freed = m.freed) ∨
    (m.newPageMap = (⟨0, .kNoEnoughMemory⟩, m) ∧
      ∀ f, m.memoryManager.rangeBegin ≤ f → f < m.memoryManager.rangeEnd →
        m.memoryManager.getBit f = true) := by
  rcases m.memoryManager.allocate_spec (Nat.le_refl 1) with ⟨c, hc, heq⟩ | ⟨hempty, heq⟩
  · obtain ⟨hlo, hend, hfree⟩ := hc.1
    refine .inl ⟨c, { m with
      mem := m.mem.setPage c fun _ => 0
      memoryManager := m.memoryManager.markAllocated c 1 }, ?_, ?_, hlo, hend, rfl, rfl, rfl, rfl⟩
    · rw [Machine.newPageMap, heq]
      rfl
    · simpa using hfree 0 Nat.one_pos
  · refine .inr ⟨by rw [Machine.newPageMap, heq]; rfl, fun f hlo hend => ?_⟩
    by_contra hused
    refine Set.eq_empty_iff_forall_notMem.mp hempty f ⟨hlo, hend, fun j hj => ?_⟩
    rwa [Nat.lt_one_iff.mp hj]

theorem getBit_markAllocated_one (memoryManager : BitmapMemoryManager) (c : Nat) :
    (memoryManager.markAllocated c 1).getBit = Function.update memoryManager.getBit c true := by
  funext f
  rw [BitmapMemoryManager.getBit_markAllocated]
  by_cases h : f = c
  · subst h
    simp
  · rw [Function.update_of_ne h, decide_eq_false (by omega), Bool.false_or]

/-- A fresh frame linked to a slot that owned nothing. -/
theorem Builds.adopt {c : Nat} {e : PageMapEntry} {page : Fin 512 → PageMapEntry}
    (hn : o n = some (T, p)) (hslot : (m.store o).kid M n i = none)
    (hc : m.memoryManager.getBit c = false) (howns : Owns M (T, p) i e) (hptr : e.pointer = c)
    (huser : e.user = true) (htable : p.length < 3 → e.writable = true ∧ e.hugePage = false ∧
      page = fun _ => 0)
    (hmem : m'.mem = (m.mem.setPage c page).setEntry n i e)
    (hmgr : m'.memoryManager = m.memoryManager.markAllocated c 1) (hcr3 : m'.cr3 = m.cr3)
    (hfreed : m'.freed = m.freed) :
    Builds M T m o m' (Function.update o c (some (T, i :: p))) := by
  refine ⟨.single ?_, hcr3, by simp [hmgr], by simp [hmgr]⟩
  have hstore : m'.store (Function.update o c (some (T, i :: p))) = {
      mem := ((m.store o).mem.setPage c page).setEntry n i e
      allocated := Function.update (m.store o).allocated c true
      owner := Function.update (m.store o).owner c (some (T, i :: p))
      freed := (m.store o).freed } := by
    rw [Machine.store, hmem, hmgr, hfreed, getBit_markAllocated_one]
  rw [hstore]
  exact .adopt hn hslot hc howns hptr huser htable

/-! ## The loops of `CopyPageMaps` -/

/-- What copying into the table `dest` has done: it built up the tree of `T`, and of the frames in
use before it changed `dest` only. The tree got no page of its own. -/
structure Copies (M T dest : Nat) (m : Machine) (o : Nat → Option Place) (m' : Machine)
    (o' : Nat → Option Place) : Prop extends Builds M T m o m' o' where
  mem : ∀ f, m.memoryManager.getBit f = true → f ≠ dest → m'.mem f = m.mem f
  pages : ∀ f p, o' f = some (T, p) → p.length = 4 → o f = some (T, p)

theorem Copies.refl : Copies M T n m o m o := ⟨.refl, fun _ _ _ => rfl, fun _ _ h _ => h⟩

/-- The cached tree is as before. -/
theorem Copies.cached (h : Copies M T n m o m' o') (hT : T ≠ M) (H : WellOwned M (m.store o))
    (hf : o f = some (M, p)) : m'.mem f = m.mem f :=
  (h.grows.frame.other H hf hT.symm).1

/-- The loop over a table at level `level`, with the entries `is` still to come: those are empty,
and below the others everything is mapped that is mapped below `src`. -/
structure CopyLoop (M T level dest src start : Nat) (m : Machine)
    (o : Nat → Option Place) (is : List (Fin 512)) (m' : Machine) (o' : Nat → Option Place) :
    Prop where
  nodup : is.Nodup
  copies : Copies M T dest m o m' o'
  empty : ∀ i ∈ is, (m'.mem dest i).present = false
  mapped : ∀ addr : LinearAddress4Level, start ≤ (addr.part level).val → addr.part level ∉ is →
    (walk m.mem addr level src).isSome → (walk m'.mem addr level dest).isSome

section Loop

variable {dest src start level : Nat} {is : List (Fin 512)} (hT : T ≠ M)
  (H : WellOwned M (m.store o)) (hdest : o dest = some (T, p)) (hsrc : o src = some (M, p))
  (hstart : p = [] → 256 ≤ start)

include hT H hdest hstart in
/-- An entry that is filled after the others of the table, or skipped. -/
private theorem CopyLoop.next (hp : p.length + level = 4)
    (h : CopyLoop M T level dest src start m o (i :: is) m' o') (h' : Copies M T dest m o m'' o'')
    (hgrows : Grows M T (m'.store o') (m''.store o''))
    (hentry : ∀ j, j ≠ i → m''.mem dest j = m'.mem dest j)
    (hi : ∀ addr : LinearAddress4Level, addr.part level = i →
      (walk m.mem addr level src).isSome → (walk m''.mem addr level dest).isSome) :
    CopyLoop M T level dest src start m o is m'' o'' := by
  obtain ⟨hnotin, hnodup⟩ := List.nodup_cons.mp h.nodup
  refine ⟨hnodup, h', fun j hj => ?_, fun addr hlo hdone hw => ?_⟩
  · rw [hentry j fun hji => hnotin (hji ▸ hj)]
    exact h.empty j (List.mem_cons_of_mem i hj)
  · by_cases hai : addr.part level = i
    · exact hi addr hai hw
    · have H' := h.copies.grows.wellOwned hT H
      refine hgrows.isSome_walk hT H' (h.copies.grows.owner hT H hdest) hp (fun h0 => ?_)
        (h.mapped addr hlo (by simp [hai, hdone]) hw)
      have hlevel : level = 4 := by simpa [h0] using hp
      rw [← hlevel]
      exact (hstart h0).trans hlo

include hT H hdest hsrc hstart in
private theorem copyLeaf_step (hp : p.length = 3)
    (h : CopyLoop M T 1 dest src start m o (i :: is) m' o') :
    (Machine.copyLeaf dest src i m').1 = .kSuccess ∧
      ∃ o'', CopyLoop M T 1 dest src start m o is (Machine.copyLeaf dest src i m').2 o'' := by
  have hp' : p.length + 1 = 4 := by omega
  rw [Machine.copyLeaf, h.copies.cached hT H hsrc]
  by_cases hpres : (m.mem src i).present = true
  · rw [if_pos hpres]
    refine ⟨rfl, o', ?_⟩
    have hgrow : Grow M T (m'.store o')
        { m'.store o' with mem := m'.mem.setEntry dest i ((m.mem src i).setWritable false) } := by
      refine .share (h.copies.grows.owner hT H hdest) hp (h.empty i (List.mem_cons_self ..)) ?_
        (by simpa using hpres) (by simpa [Machine.store] using (H.leaf src M p i hsrc hp hpres).1) (by simp)
      rw [pointer_setWritable]
      exact h.copies.grows.owner hT H (H.page hsrc hp hpres (.inr rfl))
    have hbuilds : Builds M T m' o' { m' with
        mem := m'.mem.setEntry dest i ((m.mem src i).setWritable false) } o' :=
      ⟨.single hgrow, rfl, rfl, rfl⟩
    simp only [Machine.setEntry, setEntry_setEntry, setEntry_self]
    refine h.next hT H hdest hstart hp'
      ⟨h.copies.toBuilds.trans hbuilds, fun f hf hfd => ?_, h.copies.pages⟩
      hbuilds.grows (fun j hji => setEntry_of_index_ne _ hji ..) fun addr hai _ => ?_
    · exact (setEntry_of_ne _ hfd ..).trans (h.copies.mem f hf hfd)
    · rw [isSome_walk_one, hai]
      simpa using hpres
  · rw [if_neg hpres]
    refine ⟨rfl, o', h.next hT H hdest hstart hp' h.copies .refl (fun _ _ => rfl)
      fun addr hai hw => ?_⟩
    rw [isSome_walk_one, hai] at hw
    exact absurd hw hpres

include hT H hdest hsrc hstart in
private theorem copyTable_step {copyChild : Nat → Nat → Machine → Error × Machine}
    (hchild : ∀ (m : Machine) (o : Nat → Option Place) (table child : Nat) (p : List (Fin 512)),
      WellOwned M (m.store o) → o table = some (T, p) → o child = some (M, p) →
      p.length + level = 4 → p ≠ [] → (∀ i, (m.mem table i).present = false) →
      m.memoryManager.rangeEnd ≤ 2 ^ 40 →
      ∃ o', Copies M T table m o (copyChild table child m).2 o' ∧
        ((copyChild table child m).1 = .kSuccess → ∀ addr,
          (walk m.mem addr level child).isSome →
            (walk (copyChild table child m).2.mem addr level table).isSome))
    (hp : p.length + (level + 1) = 4) (hlevel : level ≠ 0) (hlow : p = [] → 256 ≤ i.val)
    (hend : m.memoryManager.rangeEnd ≤ 2 ^ 40)
    (h : CopyLoop M T (level + 1) dest src start m o (i :: is) m' o') :
    ∃ o'', Copies M T dest m o (Machine.copyTable copyChild dest src i m').2 o'' ∧
      ((Machine.copyTable copyChild dest src i m').1 = .kSuccess →
        CopyLoop M T (level + 1) dest src start m o is
          (Machine.copyTable copyChild dest src i m').2 o'') := by
  have H' := h.copies.grows.wellOwned hT H
  have hdest' := h.copies.grows.owner hT H hdest
  have hsrc' := h.copies.grows.owner hT H hsrc
  have hmem := h.copies.cached hT H hsrc
  rw [Machine.copyTable, hmem]
  by_cases hpres : (m.mem src i).present = true
  · rw [if_pos hpres]
    rcases newPageMap_spec m' with ⟨c, m₁, hnew, hc, -, hcend, hmem₁, hmgr₁, hcr3₁, hfreed₁⟩ |
      ⟨hnew, -⟩
    · rw [hnew]
      have hne {f : Nat} {place : Place} (hf : o' f = some place) : f ≠ c := H'.ne_of_free hc hf
      have hsd : src ≠ dest := by
        rintro rfl
        rw [hsrc] at hdest
        cases hdest
        exact hT rfl
      have hsrc₁ : m₁.mem src = m.mem src := by
        rw [hmem₁, setPage_of_ne _ (hne hsrc'), hmem]
      simp only [if_true, Machine.setEntry, setEntry_setEntry, setEntry_self,
        setEntry_of_ne _ hsd, hsrc₁]
      -- the turn links the new table, then the copy goes on below it
      generalize hm₂ : ({ m₁ with mem := m₁.mem.setEntry dest i ((m.mem src i).setPointer c) } :
        Machine) = m₂
      have hmem₂ : m₂.mem = (m'.mem.setPage c fun _ => 0).setEntry dest i
          ((m.mem src i).setPointer c) := by rw [← hm₂, hmem₁]
      obtain ⟨hhuge, hflags⟩ := H.table src M p i hsrc (by omega) hlow
      obtain ⟨huser, hwritable⟩ := hflags hpres
      have hc40 : c < 2 ^ 40 := hcend.trans_le (h.copies.rangeEnd ▸ hend)
      have hlink : Builds M T m' o' m₂ (Function.update o' c (some (T, i :: p))) := by
        refine .adopt hdest' (kid_of_absent (h.empty i (List.mem_cons_self ..))) hc
          ⟨by simpa using hpres, hlow, by simp only; omega, fun h3 => by simp only at h3; omega⟩
          (pointer_setPointer hc40) (by simpa using huser)
          (fun _ => ⟨by simpa using hwritable, by simpa using hhuge, rfl⟩) hmem₂ ?_ ?_ ?_
        · rw [← hm₂, hmgr₁]
        · rw [← hm₂, hcr3₁]
        · rw [← hm₂, hfreed₁]
      have hsrcChild : o' (m.mem src i).pointer = some (M, i :: p) :=
        h.copies.grows.owner hT H (H.child hsrc (by omega) hlow hpres)
      have hdc : dest ≠ c := hne hdest'
      obtain ⟨o₃, hcopies₃, hmapped₃⟩ := hchild m₂ (Function.update o' c (some (T, i :: p))) c
        (m.mem src i).pointer (i :: p) (hlink.grows.wellOwned hT H') (Function.update_self ..)
        ((Function.update_of_ne (hne hsrcChild) ..).trans hsrcChild)
        (by simp only [List.length_cons]; omega) (fun h => by cases h)
        (fun j => by rw [hmem₂, setEntry_of_ne _ hdc.symm, setPage_self, present_zero])
        (by rw [hlink.rangeEnd, h.copies.rangeEnd]; exact hend)
      have hbit {f : Nat} (hf : m'.memoryManager.getBit f = true) (hfc : f ≠ c) :
          m₂.memoryManager.getBit f = true := by
        rw [← hm₂]
        simp [hmgr₁, hf]
      have hdestBit : m'.memoryManager.getBit dest = true :=
        H'.allocated dest (by rw [hdest']; exact Option.some_ne_none _)
      have hdest₃ (j : Fin 512) : (copyChild c (m.mem src i).pointer m₂).2.mem dest j =
          if j = i then (m.mem src i).setPointer c else m'.mem dest j := by
        rw [hcopies₃.mem dest (hbit hdestBit hdc) hdc, hmem₂, setEntry_apply,
          setPage_of_ne _ hdc]
        simp
      have hall : Copies M T dest m o (copyChild c (m.mem src i).pointer m₂).2 o₃ := by
        refine ⟨(h.copies.toBuilds.trans hlink).trans hcopies₃.toBuilds, fun f hf hfd => ?_,
          fun f q hf hq => h.copies.pages f q ?_ hq⟩
        swap
        · have hq' := hcopies₃.pages f q hf hq
          rwa [Function.update_of_ne] at hq'
          rintro rfl
          rw [Function.update_self, Option.some.injEq, Prod.mk.injEq] at hq'
          rw [← hq'.2, List.length_cons] at hq
          omega
        have hf' : m'.memoryManager.getBit f = true := h.copies.grows.allocated hf
        have hfc : f ≠ c := by
          rintro rfl
          rw [hc] at hf'
          cases hf'
        rw [hcopies₃.mem f (hbit hf' hfc) hfc, hmem₂, setEntry_of_ne _ hfd, setPage_of_ne _ hfc,
          h.copies.mem f hf hfd]
      refine ⟨o₃, hall, fun hsuccess => h.next hT H hdest hstart hp hall
        (hlink.grows.trans hcopies₃.grows) (fun j hj => by rw [hdest₃, if_neg hj])
        fun addr hai hw => ?_⟩
      obtain ⟨-, hw⟩ := (H.isSome_walk_succ hsrc hp).mp hw
      rw [hai] at hw
      rw [(hall.grows.wellOwned hT H).isSome_walk_succ (hall.grows.owner hT H hdest) hp, hai]
      simp only [hdest₃, if_true, present_setPointer, pointer_setPointer hc40]
      refine ⟨hpres, hmapped₃ hsuccess addr ?_⟩
      rw [H.walk_congr (fun f q hf _ => ?_) (H.child hsrc (by omega) hlow hpres)
        (by simp only [List.length_cons]; omega) fun h => by cases h]
      · exact hw
      · exact ((h.copies.toBuilds.trans hlink).grows.frame.other H hf hT.symm).1
    · rw [hnew]
      exact ⟨o', h.copies, fun h => by cases h⟩
  · rw [if_neg hpres]
    refine ⟨o', h.copies, fun _ => h.next hT H hdest hstart hp h.copies .refl (fun _ _ => rfl)
      fun addr hai hw => ?_⟩
    obtain ⟨hpres', -⟩ := (H.isSome_walk_succ hsrc hp).mp hw
    rw [hai] at hpres'
    exact absurd hpres' hpres

/-- The loop over a table that is empty from `start` on, for the body of either loop. -/
private theorem copyLoop_rule {body : Fin 512 → Machine → Error × Machine}
    (hempty : ∀ i : Fin 512, start ≤ i.val → (m.mem dest i).present = false)
    (hbody : ∀ i is m' o', start ≤ i.val →
      CopyLoop M T level dest src start m o (i :: is) m' o' →
        ∃ o'', Copies M T dest m o (body i m').2 o'' ∧ ((body i m').1 = .kSuccess →
          CopyLoop M T level dest src start m o is (body i m').2 o'')) :
    ∃ o', Copies M T dest m o (forEntries body (entriesFrom start) m).2 o' ∧
      ((forEntries body (entriesFrom start) m).1 = .kSuccess →
        ∀ addr, start ≤ (addr.part level).val → (walk m.mem addr level src).isSome →
          (walk (forEntries body (entriesFrom start) m).2.mem addr level dest).isSome) := by
  have hinit : CopyLoop M T level dest src start m o (entriesFrom start) m o :=
    ⟨nodup_entriesFrom, .refl, fun i hi => hempty i (mem_entriesFrom.mp hi),
      fun addr hlo hdone => absurd (mem_entriesFrom.mpr hlo) hdone⟩
  obtain ⟨hok, herr⟩ := forEntries_rule (m := m)
    (I := fun is m' => (∀ i ∈ is, start ≤ i.val) ∧
      ∃ o', CopyLoop M T level dest src start m o is m' o')
    (E := fun m' => ∃ o', Copies M T dest m o m' o') body
    (fun i is m' hI => by
      obtain ⟨hlo, o', h⟩ := hI
      obtain ⟨o'', hcopies, hloop⟩ := hbody i is m' o' (hlo i (List.mem_cons_self ..)) h
      exact ⟨fun h => ⟨fun j hj => hlo j (List.mem_cons_of_mem i hj), o'', hloop h⟩,
        fun _ => ⟨o'', hcopies⟩⟩) (entriesFrom start) ⟨fun i => mem_entriesFrom.mp, o, hinit⟩
  by_cases hsuccess : (forEntries body (entriesFrom start) m).1 = .kSuccess
  · obtain ⟨-, o', hloop⟩ := hok hsuccess
    exact ⟨o', hloop.copies, fun _ addr hlo => hloop.mapped addr hlo List.not_mem_nil⟩
  · obtain ⟨o', hcopies⟩ := herr hsuccess
    exact ⟨o', hcopies, fun h => absurd h hsuccess⟩

end Loop

/-- `CopyPageMaps` into an empty table builds up the tree of `T`, also if it fails on the way. If it
succeeds, all is mapped below `dest` that is mapped below `src`. -/
theorem copyPageMaps_spec (hT : T ≠ M) (level : Nat) {dest src start : Nat}
    (H : WellOwned M (m.store o)) (hdest : o dest = some (T, p)) (hsrc : o src = some (M, p))
    (hp : p.length + (level + 1) = 4) (hstart : p = [] → 256 ≤ start)
    (hempty : ∀ i : Fin 512, start ≤ i.val → (m.mem dest i).present = false)
    (hend : m.memoryManager.rangeEnd ≤ 2 ^ 40) :
    ∃ o', Copies M T dest m o (Machine.copyPageMaps (level + 1) dest src start m).2 o' ∧
      ((Machine.copyPageMaps (level + 1) dest src start m).1 = .kSuccess →
        ∀ addr, start ≤ (addr.part (level + 1)).val →
          (walk m.mem addr (level + 1) src).isSome →
            (walk (Machine.copyPageMaps (level + 1) dest src start m).2.mem addr (level + 1)
              dest).isSome) := by
  induction level generalizing m o dest src start p with
  | zero =>
    simp only [Nat.zero_add, Machine.copyPageMaps]
    refine copyLoop_rule hempty fun i is m' o' _ h => ?_
    obtain ⟨-, o'', h'⟩ := copyLeaf_step hT H hdest hsrc hstart (by omega) h
    exact ⟨o'', h'.copies, fun _ => h'⟩
  | succ level ih =>
    simp only [Machine.copyPageMaps]
    refine copyLoop_rule hempty fun i is m' o' hi h => ?_
    refine copyTable_step hT H hdest hsrc hstart (fun m o table child p H htable hchild hp hne
      hempty hend => ?_) hp (by omega) (fun h0 => (hstart h0).trans hi) hend h
    obtain ⟨o', hcopies, hmapped⟩ := ih H htable hchild hp (fun h => absurd h hne)
      (fun i _ => hempty i) hend
    exact ⟨o', hcopies, fun h addr => hmapped h addr (Nat.zero_le _)⟩

end MikanOS
