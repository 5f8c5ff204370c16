import MikanOS.Library.SparseMemory
import MikanOS.Paging.CopyOnWrite
import MikanOS.Paging.PageMapping

/-! # The application half as memory

What the kernel reads and writes in the upper half, where each page has a frame of its own: a memory with
holes where no page is present. -/

namespace MikanOS

open PageMapEntry LinearAddress4Level Memory PathTree SetsUpEntries

/-- The addresses from `0xffff800000000000` on. -/
def UpperHalf (a : Nat) : Prop := 2 ^ 64 - 2 ^ 47 ≤ a ∧ a < 2 ^ 64

instance (a : Nat) : Decidable (UpperHalf a) := inferInstanceAs (Decidable (_ ∧ _))

/-- A tree of tables that has no huge pages and no page twice in the upper half. -/
structure Machine.ApplicationHalf (m : Machine) : Prop where
  wellFormed : m.WellFormed
  rangeEnd : m.memoryManager.rangeEnd ≤ 2 ^ 40
  plain : ∀ addr l, 256 ≤ addr.pml4.val → l = 2 ∨ l = 3 → (m.entryAt addr l).hugePage = false
  apart : ∀ addr addr', 256 ≤ addr.pml4.val → 256 ≤ addr'.pml4.val →
    (m.entryAt addr 1).present = true → (m.entryAt addr' 1).present = true →
      (m.entryAt addr 1).pointer = (m.entryAt addr' 1).pointer → addr.pageNumber = addr'.pageNumber

/-- The bytes of the upper half. -/
def Machine.image (m : Machine) : SparseMemory.Memory UInt8 := fun a =>
  if UpperHalf a then view m.mem (ofValue a) m.cr3 else none

variable {m m' : Machine} {a a' f k level : Nat} {b : UInt8} {w : Bool} {s : Nat → PageMapEntry}
  {addr addr' : LinearAddress4Level} {content : Fin 512 → PageMapEntry} {p q : List (Fin 512)} {i : Fin 512}

/-! ## Addresses of the upper half -/

theorem UpperHalf.pml4 (h : UpperHalf a) : 256 ≤ (ofValue a).pml4.val := by
  obtain ⟨hlo, hhi⟩ := h
  simp only [ofValue, Fin.ofNat]
  omega

theorem UpperHalf.canonical (h : UpperHalf a) : (ofValue a).Canonical := by
  have hpml4 := h.pml4
  obtain ⟨hlo, hhi⟩ := h
  have hnot : ¬ (ofValue a).pml4 < 256 := fun hlt => absurd (Fin.lt_def.mp hlt) (Nat.not_lt.mpr hpml4)
  rw [Canonical, if_neg hnot]
  apply Fin.ext
  change a / 2 ^ 48 % 65536 = 65535
  omega

/-- Without the bits above the 47th the page has the number that the page maps know it by. -/
theorem UpperHalf.pageNumber (h : UpperHalf a) :
    (ofValue a).pageNumber + (2 ^ 52 - 2 ^ 36) = a / 4096 := by
  obtain ⟨hlo, hhi⟩ := h
  simp only [ofValue, LinearAddress4Level.pageNumber, Fin.ofNat]
  omega

theorem UpperHalf.ext (h : UpperHalf a) (h' : UpperHalf a')
    (hpage : (ofValue a).pageNumber = (ofValue a').pageNumber)
    (hoffset : (ofValue a).offset = (ofValue a').offset) : a = a' := by
  have hnumber := h.pageNumber
  have hnumber' := h'.pageNumber
  have hmod : a % 4096 = a' % 4096 := congrArg Fin.val hoffset
  omega

theorem entryAt_congr (h : addr.pageNumber = addr'.pageNumber) : m.entryAt addr 1 = m.entryAt addr' 1 := by
  have hplace : addr.above 0 = addr'.above 0 := by
    refine pathNumber_inj (by rw [length_above, length_above]) ?_
    rw [pathNumber_above _ (by decide), pathNumber_above _ (by decide), h]
  rw [addr.above_eq (by decide), addr'.above_eq (by decide)] at hplace
  obtain ⟨hpart, habove⟩ := List.cons.inj hplace
  rw [Machine.entryAt, Machine.entryAt, habove, hpart]

/-! ## What the walk finds -/

/-- Without huge pages the walk ends at the frame of a page table's entry, or nowhere. -/
theorem walkFrom_frame (hhuge : ∀ l, l = 2 ∨ l = 3 → (s l).hugePage = false)
    (hbelow : ∀ l, 0 < l → l < 4 → (s (l + 1)).present = false → (s l).present = false)
    (hlevel : level < 4) : (walkFrom addr s (level + 1)).map Translation.frame =
      if (s 1).present then some (s 1).pointer else none := by
  induction level with
  | zero =>
    rw [walkFrom]
    split
    · rw [if_neg (by omega)]
      rfl
    · rfl
  | succ level ih =>
    have ih := ih (by omega)
    rw [walkFrom]
    cases hpresent : (s (level + 2)).present with
    | true =>
      rw [if_pos rfl, if_neg, Option.map_map]
      · exact ih
      · rintro ⟨h, hl⟩
        rw [hhuge _ (by omega)] at h
        cases h
    | false =>
      rw [if_neg Bool.false_ne_true, ← ih, walkFrom, hbelow _ (by omega) hlevel hpresent,
        if_neg Bool.false_ne_true]

namespace Machine.ApplicationHalf

theorem frame (h : m.ApplicationHalf) (haddr : 256 ≤ addr.pml4.val) :
    (m.translate addr).map Translation.frame =
      if (m.entryAt addr 1).present then some (m.entryAt addr 1).pointer else none := by
  rw [translate_eq]
  refine walkFrom_frame (fun l hl => h.plain addr l haddr hl) (fun l _ hl habsent => ?_) (by decide)
  rw [entryAt_below habsent hl le_rfl, present_zero]

theorem image_apply (h : m.ApplicationHalf) (ha : UpperHalf a) : m.image a =
    if (m.entryAt (ofValue a) 1).present then
      some (m.mem.byte (m.entryAt (ofValue a) 1).pointer (ofValue a).offset)
    else none := by
  have hframe := congrArg (Option.map fun f => m.mem.byte f (ofValue a).offset) (h.frame ha.pml4)
  rw [Option.map_map] at hframe
  rw [image, if_pos ha, view]
  refine hframe.trans ?_
  split <;> rfl

/-- A page that is present is neither a table nor free. -/
theorem page (h : m.ApplicationHalf) (hpresent : (m.entryAt addr 1).present = true) :
    (m.entryAt addr 1).pointer ∉ m.freeFrames ∧
      ∀ q, m.tableAt q ≠ some (m.entryAt addr 1).pointer :=
  h.wellFormed.page_of_slot (addr.length_above 1) hpresent

end Machine.ApplicationHalf

/-- An upper half without tables is empty. -/
theorem applicationHalf_of_empty (H : m.WellFormed) (hend : m.memoryManager.rangeEnd ≤ 2 ^ 40)
    (hempty : ∀ i : Fin 512, 256 ≤ i.val → (m.mem m.cr3 i).present = false) :
    m.ApplicationHalf ∧ m.image = fun _ => none := by
  have hzero (addr : LinearAddress4Level) (l : Nat) (haddr : 256 ≤ addr.pml4.val) (hl : l ≤ 3) :
      m.entryAt addr l = 0 := by
    refine Machine.entryAt_below ?_ (by decide : 3 < 4) hl
    rw [Machine.entryAt_of_table (n := m.cr3) rfl]
    exact hempty _ haddr
  have hhalf : m.ApplicationHalf := by
    refine ⟨H, hend, fun addr l haddr hl => ?_, fun addr addr' haddr _ hpresent => ?_⟩
    · rw [hzero addr l haddr (by omega), hugePage_zero]
    · rw [hzero addr 1 haddr (by decide), present_zero] at hpresent
      cases hpresent
  refine ⟨hhalf, funext fun a => ?_⟩
  by_cases ha : UpperHalf a
  · rw [hhalf.image_apply ha, hzero _ 1 ha.pml4 (by decide), present_zero, if_neg Bool.false_ne_true]
  · exact if_neg ha

/-! ## Pages that are set up -/

/-- A page that is present afterwards was so before, with the same frame and contents, or it is new. -/
theorem leaf_cases (H : m.WellFormed) (S : SetsUpEntries w (rangeEntries addr k) m m')
    (hpresent' : (m'.entryAt addr' 1).present = true) :
    ((m.entryAt addr' 1).present = true ∧ (m'.entryAt addr' 1).pointer = (m.entryAt addr' 1).pointer ∧
      m'.mem (m.entryAt addr' 1).pointer = m.mem (m.entryAt addr' 1).pointer) ∨
    ((m.entryAt addr' 1).present = false ∧ InPages addr k addr' ∧
      (m'.entryAt addr' 1).pointer ∈ m.freeFrames ∧
      m'.mem (m'.entryAt addr' 1).pointer = fun _ => 0) := by
  have hlength := addr'.length_above 1
  cases hpresent : (m.entryAt addr' 1).present with
  | true =>
    obtain ⟨hfree, htable⟩ := H.page_of_slot hlength hpresent
    exact .inl ⟨rfl, (S.kept _ _ hpresent).2, (S.frames _ hfree htable).1⟩
  | false =>
    by_cases hin : InPages addr k addr'
    · obtain ⟨hfree, -, hzero⟩ := S.fresh _ _ (entry_mem_of_inPages hin (by decide) (by decide)) hlength
        hpresent
      exact .inr ⟨rfl, hin, hfree, hzero⟩
    · have hsame : m'.entryAt addr' 1 = m.entryAt addr' 1 := S.other _ _ (leaf_notMem hin)
      rw [hsame, hpresent] at hpresent'
      cases hpresent'

theorem present_after_iff (S : SetsUpEntries w (rangeEntries addr k) m m') :
    (m'.entryAt addr' 1).present = true ↔ InPages addr k addr' ∨ (m.entryAt addr' 1).present = true := by
  by_cases hin : InPages addr k addr'
  · exact iff_of_true (S.entryAt_flags hin (by decide) (by decide)).1 (.inl hin)
  · have hsame : m'.entryAt addr' 1 = m.entryAt addr' 1 := S.other _ _ (leaf_notMem hin)
    rw [hsame, or_iff_right hin]

namespace Machine.ApplicationHalf

theorem setsUp (h : m.ApplicationHalf) (S : SetsUpEntries w (rangeEntries addr k) m m') :
    m'.ApplicationHalf where
  wellFormed := S.wellFormed
  rangeEnd := S.rangeEnd ▸ h.rangeEnd
  plain addr' l haddr hl := (S.hugePage _ _).trans (h.plain addr' l haddr hl)
  apart x y hx hy hpx hpy heq := by
    rcases leaf_cases h.wellFormed S hpx with ⟨hx', hptr, -⟩ | ⟨hx', hin, hfree, -⟩ <;>
      rcases leaf_cases h.wellFormed S hpy with ⟨hy', hptr', -⟩ | ⟨hy', hin', hfree', -⟩
    · exact h.apart x y hx hy hx' hy' (hptr.symm.trans (heq.trans hptr'))
    · rw [← heq, hptr] at hfree'
      exact absurd hfree' (h.page hx').1
    · rw [heq, hptr'] at hfree
      exact absurd hfree (h.page hy').1
    · by_contra hne
      refine S.distinct _ _ _ _ (entry_mem_of_inPages hin (by decide) (by decide))
        (entry_mem_of_inPages hin' (by decide) (by decide)) (x.length_above 1) (y.length_above 1) hx' hy'
        (fun hpath => hne ?_) heq
      rw [← x.above_eq (by decide), ← y.above_eq (by decide)] at hpath
      have hnumber := congrArg pathNumber hpath
      rw [pathNumber_above _ (by decide), pathNumber_above _ (by decide), pow_zero, Nat.div_one,
        Nat.div_one] at hnumber
      exact hnumber

/-- Setting up pages fills holes with zeros. -/
theorem image_setsUp (h : m.ApplicationHalf) (S : SetsUpEntries w (rangeEntries addr k) m m') :
    m'.image = SparseMemory.fillHoles m.image {a | UpperHalf a ∧ InPages addr k (ofValue a)} 0 := by
  funext a
  by_cases ha : UpperHalf a
  · have hmem : a ∈ {a | UpperHalf a ∧ InPages addr k (ofValue a)} ↔ InPages addr k (ofValue a) :=
      and_iff_right ha
    rw [(h.setsUp S).image_apply ha, SparseMemory.fillHoles, h.image_apply ha]
    cases hpresent' : (m'.entryAt (ofValue a) 1).present with
    | true =>
      rw [if_pos rfl]
      rcases leaf_cases h.wellFormed S hpresent' with ⟨hpresent, hptr, hsame⟩ | ⟨hpresent, hin, -, hzero⟩
      · rw [hpresent, if_pos rfl, Option.getD_some, ite_self, hptr, byte_congr hsame]
      · rw [if_pos (hmem.mpr hin), hpresent, if_neg Bool.false_ne_true, Option.getD_none,
          byte_of_zero hzero]
    | false =>
      obtain ⟨hin, habsent⟩ := not_or.mp (mt (present_after_iff S).mpr (ne_true_of_eq_false hpresent'))
      rw [if_neg Bool.false_ne_true, if_neg (mt hmem.mp hin), if_neg habsent]
  · rw [image, if_neg ha, SparseMemory.fillHoles, if_neg fun hmem => ha hmem.1, image, if_neg ha]

end Machine.ApplicationHalf

/-! ## A page is written -/

namespace Machine

variable (hf : ∀ q, m.tableAt q ≠ some f)
include hf

theorem tableAt_setPage (q : List (Fin 512)) : (m.setPage f content).tableAt q = m.tableAt q := by
  refine nodeAt_congr (fun q n i hn => ?_) q
  have hne : n ≠ f := by
    rintro rfl
    exact hf q hn
  change tableLink q.length (m.mem.setPage f content n i) = _
  rw [setPage_of_ne _ hne]

theorem mem_setPage_table {n : Nat} (hn : m.tableAt q = some n) : (m.setPage f content).mem n = m.mem n := by
  refine setPage_of_ne _ ?_ _
  rintro rfl
  exact hf q hn

theorem slot_setPage (p : List (Fin 512)) (i : Fin 512) : (m.setPage f content).slot p i = m.slot p i := by
  cases hn : m.tableAt p with
  | none => rw [slot_of_none hn, slot_of_none ((tableAt_setPage hf p).trans hn)]
  | some n =>
    rw [slot_of_table hn, slot_of_table ((tableAt_setPage hf p).trans hn), mem_setPage_table hf hn]

theorem WellFormed.setPage (H : m.WellFormed) : (m.setPage f content).WellFormed where
  apart p q n hp hq := by
    refine H.apart p q n ?_ ?_
    · exact (tableAt_setPage hf p).symm.trans hp
    · exact (tableAt_setPage hf q).symm.trans hq
  allocated p n hn := H.allocated p n ((tableAt_setPage hf p).symm.trans hn)
  absent p n i hn := by
    rw [tableAt_setPage hf] at hn
    rw [mem_setPage_table hf hn]
    exact H.absent p n i hn
  page p n i hn := by
    rw [tableAt_setPage hf] at hn
    simp only [mem_setPage_table hf hn, tableAt_setPage hf]
    exact H.page p n i hn

theorem ApplicationHalf.setPage (h : m.ApplicationHalf) : (m.setPage f content).ApplicationHalf where
  wellFormed := h.wellFormed.setPage hf
  rangeEnd := h.rangeEnd
  plain addr l := by
    rw [entryAt, slot_setPage hf]
    exact h.plain addr l
  apart addr addr' := by
    rw [entryAt, entryAt, slot_setPage hf, slot_setPage hf]
    exact h.apart addr addr'

end Machine

namespace Machine.ApplicationHalf

/-- The kernel stores a byte where there is memory, whether users may write there or not. -/
theorem supervisorStore (h : m.ApplicationHalf) (ha : UpperHalf a) (hsome : (m.image a).isSome) (b : UInt8) :
    ∃ m', m.supervisorStore (ofValue a) b = .ok m' ∧ m'.ApplicationHalf ∧
      m'.image = Function.update m.image a (some b) := by
  rw [h.image_apply ha] at hsome
  cases hpresent : (m.entryAt (ofValue a) 1).present with
  | false =>
    rw [hpresent] at hsome
    cases hsome
  | true =>
    have hframe := h.frame ha.pml4
    rw [if_pos hpresent] at hframe
    obtain ⟨t, ht, htf⟩ := Option.map_eq_some_iff.mp hframe
    have htable := (h.page hpresent).2
    rw [← htf] at htable
    generalize hc : m.mem.setByteAt t.frame (ofValue a).offset b t.frame = content
    have hstore : ({ m with mem := m.mem.setByteAt t.frame (ofValue a).offset b } : Machine) =
        m.setPage t.frame content := by
      rw [setByteAt_eq_setPage, hc]
      rfl
    refine ⟨m.setPage t.frame content, ?_, h.setPage htable, funext fun x => ?_⟩
    · rw [Machine.supervisorStore, if_pos ha.canonical, ht, ← hstore]
    · by_cases hx : UpperHalf x
      · rw [(h.setPage htable).image_apply hx, entryAt, slot_setPage htable, ← entryAt, ← hstore]
        dsimp only
        rw [byte_setByteAt]
        by_cases hxa : x = a
        · rw [hxa, hpresent, if_pos rfl, Function.update_self, ← htf, if_pos ⟨rfl, rfl⟩]
        · rw [Function.update_of_ne hxa, h.image_apply hx]
          cases hpresent' : (m.entryAt (ofValue x) 1).present with
          | false => rfl
          | true =>
            rw [if_pos rfl, if_pos rfl, if_neg]
            rintro ⟨hptr, hoffset⟩
            rw [htf] at hptr
            exact hxa (hx.ext ha (h.apart _ _ hx.pml4 ha.pml4 hpresent' hpresent hptr) hoffset)
      · have hxa : x ≠ a := by
          rintro rfl
          exact hx ha
        rw [Function.update_of_ne hxa, image, if_neg hx, image, if_neg hx]

end Machine.ApplicationHalf

/-- Elsewhere it faults. -/
theorem Machine.supervisorStore_hole (ha : UpperHalf a) (hnone : m.image a = none) (b : UInt8) :
    m.supervisorStore (ofValue a) b = .error (.pageFault 2) := by
  rw [image, if_pos ha, view, Option.map_eq_none_iff] at hnone
  rw [Machine.supervisorStore, if_pos ha.canonical, translate, hnone]
  rfl

end MikanOS
