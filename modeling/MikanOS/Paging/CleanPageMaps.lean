import MikanOS.Paging.CopyPageMaps

/-! # Cleaning up a tree

`CleanPageMaps` frees what the tree of `T` owns, tables and pages, and leaves shared pages alone. -/

namespace MikanOS

open PageMapEntry LinearAddress4Level Memory Store Relation

variable {M T n c start level : Nat} {p : List (Fin 512)} {i : Fin 512} {m m' m'' : Machine}
  {o o' o'' : Nat → Option Place} {addr : LinearAddress4Level}

theorem getBit_free_one (memoryManager : BitmapMemoryManager) (c : Nat) :
    (memoryManager.free c 1).2.getBit = Function.update memoryManager.getBit c false := by
  funext f
  rw [BitmapMemoryManager.getBit_free]
  by_cases h : f = c
  · subst h
    simp
  · rw [Function.update_of_ne h]
    simp only [show ¬ (c ≤ f ∧ f < c + 1) by omega, decide_false, Bool.not_false, Bool.true_and]

/-- What cleaning below the table `n` has done so far: of the frames with owners it touched those below
`n` only, and `n` is still there. -/
structure Cleans (M T n : Nat) (p : List (Fin 512)) (m : Machine) (o : Nat → Option Place)
    (m' : Machine) (o' : Nat → Option Place) : Prop where
  shrinks : Shrinks M T (m.store o) (m'.store o')
  cr3 : m'.cr3 = m.cr3
  node : o' n = some (T, p)
  outside : ∀ f r q, o f = some (r, q) → ¬ (r = T ∧ ∃ l, q = l ++ p) →
    m'.mem f = m.mem f ∧ o' f = some (r, q)

theorem Cleans.refl (hn : o n = some (T, p)) : Cleans M T n p m o m o :=
  ⟨.refl, rfl, hn, fun _ _ _ h _ => ⟨rfl, h⟩⟩

theorem Cleans.trans (h : Cleans M T n p m o m' o') (h' : Cleans M T n p m' o' m'' o'') :
    Cleans M T n p m o m'' o'' := by
  refine ⟨h.shrinks.trans h'.shrinks, h'.cr3.trans h.cr3, h'.node, fun f r q hf hout => ?_⟩
  obtain ⟨hmem, ho⟩ := h.outside f r q hf hout
  obtain ⟨hmem', ho'⟩ := h'.outside f r q ho hout
  exact ⟨hmem'.trans hmem, ho'⟩

/-- Below a child of the table is below the table. -/
theorem Cleans.child (h : Cleans M T c (i :: p) m o m' o') (hn : o n = some (T, p)) :
    Cleans M T n p m o m' o' ∧ m'.mem n = m.mem n := by
  obtain ⟨hmem, ho⟩ := h.outside n T p hn fun hbelow => by
    obtain ⟨-, l, hl⟩ := hbelow
    have := congrArg List.length hl
    simp only [List.length_append, List.length_cons] at this
    omega
  refine ⟨⟨h.shrinks, h.cr3, ho, fun f r q hf hout => h.outside f r q hf fun hbelow => hout ?_⟩, hmem⟩
  obtain ⟨hr, l, hl⟩ := hbelow
  exact ⟨hr, l ++ [i], by rw [hl, List.append_assoc, List.singleton_append]⟩

/-- The entry is cleared, and a frame that it owns freed. -/
theorem Cleans.release (H : WellOwned M (m.store o)) (hn : o n = some (T, p))
    (howns : Owns M (T, p) i (m.mem n i)) (hleaf : ∀ j, (m.store o).kid M (m.mem n i).pointer j = none) :
    Cleans M T n p m o ((m.freePageMap (m.mem n i).pointer).2.setEntry n i 0)
      (Function.update o (m.mem n i).pointer none) := by
  generalize hc : (m.mem n i).pointer = c at hleaf ⊢
  have hslot : (m.store o).kid M n i = some c := by
    rw [kid_of_owner hn, if_pos howns, ← hc]
  have hoc : o c = some (T, i :: p) := H.forest.child n T p i c hn hslot
  have hnc : n ≠ c := by
    rintro rfl
    rw [hn] at hoc
    have := congrArg (fun place => (Prod.snd place).length) (Option.some.inj hoc)
    simp at this
  refine ⟨.single ?_, rfl, (Function.update_of_ne hnc ..).trans hn, fun f r q hf hout => ⟨?_, ?_⟩⟩
  · have hstore : ((m.freePageMap c).2.setEntry n i 0).store (Function.update o c none) = {
        mem := (m.store o).mem.setEntry n i 0
        allocated := Function.update (m.store o).allocated c false
        owner := Function.update (m.store o).owner c none
        freed := c :: (m.store o).freed } := by
      rw [Machine.store, Machine.setEntry, Machine.freePageMap]
      simp only [getBit_free_one]
    rw [hstore]
    exact .release hn hslot hleaf
  · refine setEntry_of_ne _ ?_ ..
    rintro rfl
    rw [hn] at hf
    cases hf
    exact hout ⟨rfl, [], rfl⟩
  · refine (Function.update_of_ne ?_ ..).trans hf
    rintro rfl
    rw [hoc] at hf
    cases hf
    exact hout ⟨rfl, [i], rfl⟩

/-- The entry of a shared page is cleared. -/
theorem Cleans.unshare (hT : T ≠ M) (hn : o n = some (T, p)) (hp : p.length = 3)
    (hw : (m.mem n i).writable = false) : Cleans M T n p m o (m.setEntry n i 0) o := by
  refine ⟨.single (.unshare hn hp (kid_of_shared hT hn hp hw)), rfl, hn, fun f r q hf hout =>
    ⟨setEntry_of_ne _ ?_ .., hf⟩⟩
  rintro rfl
  rw [hn] at hf
  cases hf
  exact hout ⟨rfl, [], rfl⟩

/-- One turn of the loop. -/
theorem cleanEntry_spec (hT : T ≠ M) {cleanChild : Nat → Machine → Error × Machine}
    (H : WellOwned M (m.store o)) (hn : o n = some (T, p)) (hp : p.length + level = 4)
    (hlevel : 0 < level) (htr : Tracked p i)
    (hchild : 1 < level → ∀ c, o c = some (T, i :: p) → (cleanChild c m).1 = .kSuccess ∧
      ∃ o', Cleans M T c (i :: p) m o (cleanChild c m).2 o' ∧
        ∀ j, ((cleanChild c m).2.mem c j).present = false) :
    (Machine.cleanEntry cleanChild n level i m).1 = .kSuccess ∧
      ∃ o', Cleans M T n p m o (Machine.cleanEntry cleanChild n level i m).2 o' ∧
        ((Machine.cleanEntry cleanChild n level i m).2.mem n i).present = false ∧
        ∀ j, j ≠ i → (Machine.cleanEntry cleanChild n level i m).2.mem n j = m.mem n j := by
  rw [Machine.cleanEntry]
  have hfree (m : Machine) (c : Nat) : (m.freePageMap c).1 = .kSuccess := rfl
  cases hpres : (m.mem n i).present with
  | false => exact ⟨rfl, o, .refl hn, hpres, fun _ _ => rfl⟩
  | true =>
    simp only [if_true]
    by_cases hl : 1 < level
    · have hp3 : p.length < 3 := by omega
      obtain ⟨-, hflags⟩ := H.table n T p i hn hp3 htr
      obtain ⟨-, hw⟩ := hflags hpres
      obtain ⟨hok, o₁, hc, hempty⟩ := hchild hl _ (H.child hn hp3 htr hpres)
      rw [if_pos hl]
      generalize cleanChild (m.mem n i).pointer m = cleaned at hok hc hempty ⊢
      obtain ⟨err, m₁⟩ := cleaned
      simp only at hok hc hempty ⊢
      obtain ⟨hc', hmem⟩ := hc.child hn
      have hrel := Cleans.release (i := i) (hc.shrinks.wellOwned hT H) hc'.node
        (by rw [hmem]; exact ⟨hpres, htr, hp3.le, fun h => absurd h hp3.ne⟩)
        (fun j => kid_of_absent (by rw [hmem]; exact hempty j))
      rw [hmem] at hrel
      rw [if_pos hok, if_pos hw, if_pos (hfree m₁ _)]
      refine ⟨rfl, _, hc'.trans hrel, ?_, fun j hj => ?_⟩
      · simp only [Machine.setEntry_mem, setEntry_self, present_zero]
      · simp only [Machine.setEntry_mem, setEntry_of_index_ne _ hj]
        exact congrFun hmem j
    · have hp3 : p.length = 3 := by omega
      rw [if_neg hl, if_pos rfl]
      simp only
      cases hw : (m.mem n i).writable with
      | true =>
        have hpage := H.page hn hp3 hpres (.inl hw)
        rw [if_pos rfl, if_pos (hfree m _)]
        refine ⟨rfl, _, .release H hn ⟨hpres, htr, hp3.le, fun _ => .inl hw⟩
          (fun j => kid_of_page hpage (by simp [hp3])), ?_, fun j hj => ?_⟩
        · simp only [Machine.setEntry_mem, setEntry_self, present_zero]
        · simp only [Machine.setEntry_mem, setEntry_of_index_ne _ hj]
          rfl
      | false =>
        rw [if_neg Bool.false_ne_true]
        refine ⟨rfl, _, .unshare hT hn hp3 hw, ?_, fun j hj => ?_⟩
        · simp only [if_true, Machine.setEntry_mem, setEntry_self, present_zero]
        · simp only [if_true, Machine.setEntry_mem, setEntry_of_index_ne _ hj]

/-- The loop over the entries of a table. -/
theorem cleanLoop_spec (hT : T ≠ M) {cleanChild : Nat → Machine → Error × Machine}
    (H : WellOwned M (m.store o)) (hn : o n = some (T, p)) (hp : p.length + level = 4)
    (hlevel : 0 < level) (hstart : p = [] → 256 ≤ start)
    (hchild : 1 < level → ∀ (m : Machine) (o : Nat → Option Place) (i : Fin 512) (c : Nat),
      WellOwned M (m.store o) → o c = some (T, i :: p) → (cleanChild c m).1 = .kSuccess ∧
      ∃ o', Cleans M T c (i :: p) m o (cleanChild c m).2 o' ∧
        ∀ j, ((cleanChild c m).2.mem c j).present = false) {r : Error × Machine}
    (hr : forEntries (Machine.cleanEntry cleanChild n level) (entriesFrom start) m = r) :
    r.1 = .kSuccess ∧ ∃ o', Cleans M T n p m o r.2 o' ∧
      ∀ i : Fin 512, start ≤ i.val → (r.2.mem n i).present = false := by
  obtain ⟨hok, herr⟩ := forEntries_rule (m := m)
    (I := fun is m' => (∀ i ∈ is, start ≤ i.val) ∧ ∃ o', Cleans M T n p m o m' o' ∧
      ∀ i : Fin 512, start ≤ i.val → i ∉ is → (m'.mem n i).present = false)
    (E := fun _ => False) (Machine.cleanEntry cleanChild n level) (fun i is m' hI => by
      obtain ⟨hlo, o', hc, hempty⟩ := hI
      have htr : Tracked p i := fun h0 => (hstart h0).trans (hlo i List.mem_cons_self)
      have H' := hc.shrinks.wellOwned hT H
      obtain ⟨hok, o'', hc', hi, hother⟩ := cleanEntry_spec hT H' hc.node hp hlevel htr
        fun hl c hoc => hchild hl m' o' i c H' hoc
      refine ⟨fun _ => ⟨fun j hj => hlo j (List.mem_cons_of_mem i hj), o'', hc.trans hc',
        fun j hj hdone => ?_⟩, fun h => absurd hok h⟩
      by_cases hji : j = i
      · rw [hji]
        exact hi
      · rw [hother j hji]
        exact hempty j hj (by simp [hji, hdone])) (entriesFrom start)
    ⟨fun i => mem_entriesFrom.mp, o, .refl hn, fun i hi hdone => absurd (mem_entriesFrom.mpr hi) hdone⟩
  rw [hr] at hok herr
  by_cases hsuccess : r.1 = .kSuccess
  · obtain ⟨-, o', hc, hempty⟩ := hok hsuccess
    exact ⟨hsuccess, o', hc, fun i hi => hempty i hi List.not_mem_nil⟩
  · exact (herr hsuccess).elim

/-- `CleanPageMap` from the first entry of every table below: it succeeds and leaves no entry. -/
theorem cleanPageMap_spec (hT : T ≠ M) (hzero : ∀ l, l ≤ 3 → addr.part l = 0) (level : Nat)
    (H : WellOwned M (m.store o)) (hn : o n = some (T, p)) (hp : p.length + (level + 1) = 4)
    (hstart : p = [] → 256 ≤ (addr.part (level + 1)).val) :
    (Machine.cleanPageMap addr (level + 1) n m).1 = .kSuccess ∧
      ∃ o', Cleans M T n p m o (Machine.cleanPageMap addr (level + 1) n m).2 o' ∧
        ∀ i : Fin 512, (addr.part (level + 1)).val ≤ i.val →
          ((Machine.cleanPageMap addr (level + 1) n m).2.mem n i).present = false := by
  induction level generalizing m o n p with
  | zero =>
    rw [Machine.cleanPageMap]
    exact cleanLoop_spec hT H hn hp Nat.one_pos hstart (fun h => absurd h (lt_irrefl 1)) rfl
  | succ level ih =>
    rw [Machine.cleanPageMap]
    refine cleanLoop_spec hT H hn hp (Nat.succ_pos _) hstart (fun _ m o i c H hoc => ?_) rfl
    obtain ⟨hok, o', hc, hempty⟩ := ih H hoc (by simp only [List.length_cons]; omega)
      fun h => by cases h
    refine ⟨hok, o', hc, fun j => hempty j ?_⟩
    rw [hzero (level + 1) (by omega)]
    exact Nat.zero_le _

end MikanOS
