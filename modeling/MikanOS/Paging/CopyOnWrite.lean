import MikanOS.Paging.LoadApp

/-! # Copy-on-write

`CopyOnePage` gives a shared leaf a page of its own with the same contents. Seen through the MMU,
nothing changes but the permission. -/

namespace MikanOS

open PageMapEntry LinearAddress4Level Memory Store

variable {M T n c r : Nat} {p : List (Fin 512)} {i : Fin 512} {s s' : Store} {m m' : Machine}
  {o o' : Nat → Option Place} {addr addr' : LinearAddress4Level} {t : Translation} {level : Nat}

namespace LinearAddress4Level

theorem place_four (addr : LinearAddress4Level) :
    addr.place 4 = [addr.part 1, addr.part 2, addr.part 3, addr.part 4] := rfl

theorem part_eq_of_place (h : addr.place 4 = addr'.place 4) (level : Nat) :
    addr.part level = addr'.part level := by
  simp only [place_four, List.cons.injEq, and_true] at h
  obtain ⟨h1, h2, h3, h4⟩ := h
  rcases level with _ | _ | _ | _ | _ | level
  · rfl
  · exact h1
  · exact h2
  · exact h3
  · exact h4
  · rfl

theorem Canonical.eq_of_place (h : addr.Canonical) (h' : addr'.Canonical)
    (hplace : addr.place 4 = addr'.place 4) (hoff : addr.offset = addr'.offset) : addr = addr' :=
  h.ext h' hoff (part_eq_of_place hplace)

end LinearAddress4Level

/-- The offset plays no part in a walk. -/
theorem walk_congr_part (mem : Memory) (h : ∀ level, addr.part level = addr'.part level)
    (level table : Nat) : walk mem addr level table = walk mem addr' level table := by
  have hhuge (l : Nat) (e : PageMapEntry) : hugeFrame addr l e = hugeFrame addr' l e := by
    rw [hugeFrame, hugeFrame, show addr.page = addr'.page from h 1,
      show addr.dir = addr'.dir from h 2]
  induction level generalizing table with
  | zero => rfl
  | succ level ih => rw [walk, walk, h, hhuge, ih]

/-- The byte that an address space shows at an address. -/
def view (mem : Memory) (addr : LinearAddress4Level) (pml4 : Nat) : Option UInt8 :=
  (walk mem addr 4 pml4).map fun t => mem.byte t.frame addr.offset

theorem isSome_view (mem : Memory) (addr : LinearAddress4Level) (pml4 : Nat) :
    (view mem addr pml4).isSome = (walk mem addr 4 pml4).isSome := Option.isSome_map ..

namespace Store

/-- What happens to the tree of `T` cannot be seen from another address space. -/
theorem Frame.view (h : Frame T s s') (H : WellOwned M s) (hT : T ≠ M)
    (hroot : s.owner r = some (r, [])) (hr : r ≠ T) (haddr : 256 ≤ (addr.part 4).val) :
    MikanOS.view s'.mem addr r = MikanOS.view s.mem addr r := by
  rw [MikanOS.view, MikanOS.view,
    H.walk_congr (fun f q hf _ => (h.other H hf hr).1) hroot rfl fun _ => haddr]
  refine Option.map_congr fun t ht => ?_
  obtain ⟨-, howner⟩ := H.walk_owner hroot rfl (fun _ => haddr) ht
  refine byte_congr (h.other H howner ?_).1 _
  split
  · exact hr
  · exact hT.symm

end Store

/-- `SetPageContent` follows the walk of the MMU down to the leaf and replaces the page there. -/
theorem setPageContent_spec (level : Nat) (H : WellOwned M s)
    (hmem : ∀ f q, s.owner f = some (T, q) → q.length ≤ 3 → m.mem f = s.mem f)
    (hn : s.owner n = some (T, p)) (hp : p.length + (level + 1) = 4)
    (ht : p = [] → 256 ≤ (addr.part 4).val) (hw : walk s.mem addr (level + 1) n = some t) :
    ∃ leaf q, s.owner leaf = some (T, q) ∧ q.length = 3 ∧
      addr.place (level + 1) ++ p = addr.part 1 :: q ∧
      (s.mem leaf (addr.part 1)).present = true ∧
      (s.mem leaf (addr.part 1)).pointer = t.frame ∧
      (s.mem leaf (addr.part 1)).writable = t.writable ∧
      Machine.setPageContent addr c (level + 1) n m = m.setEntry leaf (addr.part 1)
        (((s.mem leaf (addr.part 1)).setPointer c).setWritable true) := by
  induction level generalizing n p t with
  | zero =>
    have hpres : (s.mem n (addr.part 1)).present = true := by
      rw [← isSome_walk_one]
      simp only [Nat.zero_add] at hw
      rw [hw]
      rfl
    rw [H.walk_succ hn hp] at hw
    simp only [Nat.zero_add, hpres, if_true, walk, Option.map_some, Option.some.injEq,
      Bool.and_true] at hw
    subst hw
    refine ⟨n, p, hn, by omega, rfl, hpres, rfl, rfl, ?_⟩
    simp only [Machine.setPageContent, Machine.setEntry, setEntry_setEntry,
      setEntry_self, hmem n p hn (by omega)]
  | succ level ih =>
    rw [H.walk_succ hn hp] at hw
    split at hw
    · rename_i hpres
      obtain ⟨t', hw', rfl⟩ := Option.map_eq_some_iff.mp hw
      have htr : Tracked p (addr.part (level + 2)) := .of_level hp ht
      obtain ⟨-, hflags⟩ := H.table n T p _ hn (by omega) htr
      obtain ⟨leaf, q, hleaf, hq, hplace, hpres', hptr, hw', hset⟩ :=
        ih (H.child hn (by omega) htr hpres) (by simp only [List.length_cons]; omega)
          (fun h => by cases h) hw'
      refine ⟨leaf, q, hleaf, hq, ?_, hpres', hptr, ?_, ?_⟩
      · rw [← hplace, addr.place_succ_append]
      · rw [hw', (hflags hpres).2, Bool.true_and]
      · rw [Machine.setPageContent, hmem n p hn (by omega)]
        exact hset
    · cases hw

/-! ## A walk after one leaf has changed -/

section SetLeaf

variable {leaf : Nat} {q : List (Fin 512)} {e : PageMapEntry} {mem' : Memory}
  (H : WellOwned M s) (hleaf : s.owner leaf = some (T, q)) (hq : q.length = 3)
  (hmem : ∀ f q, s.owner f = some (T, q) → q.length ≤ 3 → ∀ j,
    mem' f j = if f = leaf ∧ j = i then e else s.mem f j)

include H hleaf hq hmem

/-- The address that the leaf is for. -/
theorem walk_setLeaf_self (he : e.present = true) (hn : s.owner n = some (T, p))
    (hp : p.length + (level + 1) = 4) (ht : p = [] → 256 ≤ (addr.part 4).val)
    (hplace : addr.place (level + 1) ++ p = i :: q)
    (hw : (walk s.mem addr (level + 1) n).isSome) :
    walk mem' addr (level + 1) n = some ⟨e.pointer, e.user, e.writable⟩ := by
  induction level generalizing n p with
  | zero =>
    obtain ⟨hi, hpq⟩ := List.cons.inj (hplace : addr.part 1 :: p = i :: q)
    have hentry : mem' n (addr.part 1) = e := by
      have hnl : n = leaf := H.forest.unique hn (hleaf.trans (by rw [← hpq]; rfl))
      rw [hmem n p hn (by omega), if_pos ⟨hnl, hi⟩]
    rw [walk_succ, Nat.zero_add, hentry]
    simp [he, walk]
  | succ level ih =>
    have htr : Tracked p (addr.part (level + 2)) := .of_level hp ht
    obtain ⟨hpres, hw⟩ := (H.isSome_walk_succ hn hp).mp hw
    obtain ⟨hhuge, hflags⟩ := H.table n T p _ hn (by omega) htr
    have hentry : mem' n (addr.part (level + 2)) = s.mem n (addr.part (level + 2)) := by
      rw [hmem n p hn (by omega), if_neg fun h => ?_]
      rw [h.1, hleaf] at hn
      cases hn
      omega
    rw [walk_succ, hentry, ih (H.child hn (by omega) htr hpres) (by simp only [List.length_cons]; omega)
      (fun h => by cases h) (by rw [← addr.place_succ_append]; exact hplace) hw]
    simp [hpres, hhuge, (hflags hpres).1, (hflags hpres).2]

/-- The other addresses. -/
theorem walk_setLeaf_of_ne (hn : s.owner n = some (T, p)) (hp : p.length + (level + 1) = 4)
    (ht : p = [] → 256 ≤ (addr.part 4).val) (hplace : addr.place (level + 1) ++ p ≠ i :: q) :
    walk mem' addr (level + 1) n = walk s.mem addr (level + 1) n := by
  induction level generalizing n p with
  | zero =>
    have hentry : mem' n (addr.part 1) = s.mem n (addr.part 1) := by
      rw [hmem n p hn (by omega), if_neg fun h => ?_]
      rw [h.1, hleaf] at hn
      cases hn
      exact hplace (by rw [← h.2]; rfl)
    rw [walk_succ mem', walk_succ s.mem, Nat.zero_add, hentry]
    rfl
  | succ level ih =>
    have hentry : mem' n (addr.part (level + 2)) = s.mem n (addr.part (level + 2)) := by
      rw [hmem n p hn (by omega), if_neg fun h => ?_]
      rw [h.1, hleaf] at hn
      cases hn
      omega
    rw [walk_succ mem', walk_succ s.mem, hentry]
    by_cases hpres : (s.mem n (addr.part (level + 2))).present = true
    · rw [ih (H.child hn (by omega) (.of_level hp ht) hpres)
        (by simp only [List.length_cons]; omega) (fun h => by cases h)
        (by rw [← addr.place_succ_append]; exact hplace)]
    · simp [hpres]

end SetLeaf

/-- What `CopyOnePage` leaves behind for a shared leaf: the address has the page `c` of its own, with
the contents of the page that was shared. -/
structure Copied (M T c : Nat) (addr : LinearAddress4Level) (m : Machine)
    (o : Nat → Option Place) (m' : Machine) : Prop where
  fresh : m.memoryManager.getBit c = false
  builds : Builds M T m o m' (Function.update o c (some (T, addr.place 4)))
  walk_self : walk m'.mem addr 4 T = some ⟨c, true, true⟩
  walk_other : ∀ addr' : LinearAddress4Level, 256 ≤ (addr'.part 4).val →
    addr'.place 4 ≠ addr.place 4 → walk m'.mem addr' 4 T = walk m.mem addr' 4 T
  mapped : (walk m.mem addr 4 T).isSome
  contents : ∀ t, walk m.mem addr 4 T = some t → m'.mem c = m.mem t.frame
  mem : ∀ f, f ≠ c → (∀ q, q.length ≤ 3 → o f ≠ some (T, q)) → m'.mem f = m.mem f

theorem copyOnePage_spec (H : WellOwned M (m.store o)) (hT : T ≠ M) (hroot : o T = some (T, []))
    (hcr3 : m.cr3 = T) (hend : m.memoryManager.rangeEnd ≤ 2 ^ 40)
    (haddr : 256 ≤ (addr.part 4).val) (hw : walk m.mem addr 4 T = some t)
    (hshared : t.writable = false) :
    (∃ c m', m.copyOnePage addr = (.kSuccess, m') ∧ Copied M T c addr m o m') ∨
      (m.copyOnePage addr = (.kNoEnoughMemory, m) ∧
        ∀ f, m.memoryManager.rangeBegin ≤ f → f < m.memoryManager.rangeEnd →
          m.memoryManager.getBit f = true) := by
  rw [Machine.copyOnePage]
  rcases newPageMap_spec m with ⟨c, m₁, hnew, hc, -, hcend, hmem₁, hmgr₁, hcr3₁, hfreed₁⟩ |
    ⟨hnew, hfull⟩
  · rw [hnew]
    refine .inl ⟨c, _, rfl, ?_⟩
    have hne {f : Nat} {place : Place} (hf : o f = some place) : f ≠ c := H.ne_of_free hc hf
    obtain ⟨-, howner⟩ := H.walk_owner hroot rfl (fun _ => haddr) hw
    have hwalk₁ : walk m₁.mem addr 4 T = some t := by
      rw [H.walk_congr (fun f q hf _ => ?_) hroot rfl fun _ => haddr]
      · exact hw
      · rw [hmem₁, setPage_of_ne _ (hne hf)]
    have hread : m₁.readPage { addr with offset := 0 } = m.mem t.frame := by
      rw [Machine.readPage, Machine.translate, hcr3₁, hcr3]
      rw [walk_congr_part m₁.mem (part_offset addr 0), hwalk₁]
      simp only [hmem₁]
      exact setPage_of_ne _ (hne howner) _
    generalize hm₂ : m₁.setPage c (m.mem t.frame) = m₂
    have hmem₂ : m₂.mem = m.mem.setPage c (m.mem t.frame) := by
      rw [← hm₂, Machine.setPage, hmem₁, setPage_setPage]
    obtain ⟨leaf, q, hleaf, hq, hplace, hpres, hptr, hwr, hset⟩ := setPageContent_spec (c := c)
      (m := m₂) 3 H (fun f q hf _ => by rw [hmem₂, setPage_of_ne _ (hne hf)]) hroot rfl
      (fun _ => haddr) hw
    simp only [Nat.reduceAdd, List.append_nil] at hplace hset
    have hcr3₂ : m₂.cr3 = T := by
      rw [← hm₂]
      exact hcr3₁.trans hcr3
    simp only [hread, hm₂, hcr3₂, hset]
    have huser : (m.mem leaf (addr.part 1)).user = true := (H.leaf _ _ _ _ hleaf hq hpres).1
    generalize he : ((m.mem leaf (addr.part 1)).setPointer c).setWritable true = e
    have hepres : e.present = true := by rw [← he]; simpa using hpres
    have heptr : e.pointer = c := by
      rw [← he, pointer_setWritable, pointer_setPointer (hcend.trans_le hend)]
    have heuser : e.user = true := by rw [← he]; simpa using huser
    have hewr : e.writable = true := by rw [← he]; simp
    have hmem' (f : Nat) (p : List (Fin 512)) (hf : o f = some (T, p)) (_ : p.length ≤ 3)
        (j : Fin 512) : (m₂.setEntry leaf (addr.part 1) e).mem f j =
          if f = leaf ∧ j = addr.part 1 then e else m.mem f j := by
      rw [Machine.setEntry_mem, setEntry_apply, hmem₂, setPage_of_ne _ (hne hf)]
    have htr : Tracked q (addr.part 1) := by
      rintro rfl
      cases hq
    refine ⟨hc, ?_, ?_, fun addr' haddr' hne' => ?_, by rw [hw]; rfl, fun t' ht' => ?_,
      fun f hfc hf => ?_⟩
    · rw [hplace]
      refine .adopt hleaf (kid_of_shared hT hleaf hq (hwr.trans hshared)) hc
        ⟨hepres, htr, hq.le, fun _ => .inl hewr⟩ heptr heuser
        (fun hlt => absurd hq hlt.ne) (by rw [Machine.setEntry_mem, hmem₂])
        (by rw [← hm₂]; exact hmgr₁) (hcr3₂.trans hcr3.symm) (by rw [← hm₂]; exact hfreed₁)
    · rw [walk_setLeaf_self H hleaf hq hmem' hepres hroot rfl (fun _ => haddr)
        (by rw [List.append_nil, hplace]) (by rw [hw]; rfl), heptr, heuser, hewr]
    · refine walk_setLeaf_of_ne H hleaf hq hmem' hroot rfl (fun _ => haddr') ?_
      rw [List.append_nil, ← hplace]
      exact hne'
    · rw [hw] at ht'
      cases ht'
      rw [Machine.setEntry_mem, setEntry_of_ne _ (hne hleaf).symm, hmem₂, setPage_self]
    · have hfl : f ≠ leaf := by
        rintro rfl
        exact hf q hq.le hleaf
      rw [Machine.setEntry_mem, setEntry_of_ne _ hfl, hmem₂, setPage_of_ne _ hfc]
  · rw [hnew]
    exact .inr ⟨rfl, hfull⟩

end MikanOS
