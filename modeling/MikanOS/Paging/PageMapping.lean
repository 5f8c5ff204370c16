import MikanOS.Paging.PageRange

/-! # What a range of pages is mapped to

The result of `SetupPageMaps` as the MMU sees it: the pages of the range are present, with what they had or
with new frames, and no other page is touched. -/

namespace MikanOS

open PageMapEntry LinearAddress4Level Memory PathTree

/-- The entry at which the walk of the MMU ends, that of a page or of a huge page. -/
def walkEntry (mem : Memory) (addr : LinearAddress4Level) : (level : Nat) → (table : Nat) →
    Option PageMapEntry
  | 0, _ => none
  | level + 1, table =>
    let e := mem table (addr.part (level + 1))
    if e.present then
      if level = 0 ∨ (e.hugePage ∧ (level = 1 ∨ level = 2)) then some e
      else walkEntry mem addr level e.pointer
    else none

/-- The walk comes to a huge page. -/
def WalksHuge (mem : Memory) (addr : LinearAddress4Level) : (level : Nat) → (table : Nat) → Prop
  | 0, _ => False
  | level + 1, table =>
    let e := mem table (addr.part (level + 1))
    e.present = true ∧
      ((e.hugePage = true ∧ (level = 1 ∨ level = 2)) ∨ WalksHuge mem addr level e.pointer)

namespace Machine

variable (m : Machine)

/-- The entry that maps the page around an address. -/
def pageEntry (addr : LinearAddress4Level) : Option PageMapEntry := walkEntry m.mem addr 4 m.cr3

/-- The entry of some level that the walk comes by, or zero if it does not. -/
def entryAt (addr : LinearAddress4Level) (level : Nat) : PageMapEntry :=
  m.slot (addr.above level) (addr.part level)

/-- The tables that the walk comes by allow users everything. -/
def TablesOpen (addr : LinearAddress4Level) : Prop :=
  ∀ level, 2 ≤ level → level ≤ 4 → (m.entryAt addr level).present = true →
    (level = 4 ∨ (m.entryAt addr level).hugePage = false) →
      (m.entryAt addr level).user = true ∧ (m.entryAt addr level).writable = true

end Machine

/-- One of the `num4kpages` pages from that of `addr` on. -/
def InPages (addr : LinearAddress4Level) (num4kpages : Nat) (addr' : LinearAddress4Level) : Prop :=
  addr.pageNumber ≤ addr'.pageNumber ∧ addr'.pageNumber < addr.pageNumber + num4kpages

/-- What setting up pages leaves: those of the range are present, for users and as writable as asked for,
with the frames and contents that they had or with new zeroed frames; all others are mapped as before. -/
structure PagesSetUp (w : Bool) (addr : LinearAddress4Level) (num4kpages : Nat) (m m' : Machine) :
    Prop where
  mapped : ∀ addr', InPages addr num4kpages addr' → ∃ e, m'.pageEntry addr' = some e ∧
    e.user = true ∧ e.writable = w ∧ m'.translate addr' = some ⟨e.pointer, true, w⟩
  kept : ∀ addr' e, InPages addr num4kpages addr' → m.pageEntry addr' = some e →
    ∃ e', m'.pageEntry addr' = some e' ∧ e'.pointer = e.pointer ∧ m'.mem e.pointer = m.mem e.pointer
  fresh : ∀ addr' e, InPages addr num4kpages addr' → m.pageEntry addr' = none →
    m'.pageEntry addr' = some e → e.pointer ∈ m.freeFrames ∧ e.pointer ∉ m'.freeFrames ∧
      m'.mem e.pointer = fun _ => 0
  distinct : ∀ addr₁ addr₂ e₁ e₂, InPages addr num4kpages addr₁ → InPages addr num4kpages addr₂ →
    m.pageEntry addr₁ = none → m.pageEntry addr₂ = none → m'.pageEntry addr₁ = some e₁ →
      m'.pageEntry addr₂ = some e₂ → addr₁.pageNumber ≠ addr₂.pageNumber → e₁.pointer ≠ e₂.pointer
  others : ∀ addr', ¬ InPages addr num4kpages addr' → m'.pageEntry addr' = m.pageEntry addr' ∧
    (m'.translate addr').map Translation.frame = (m.translate addr').map Translation.frame ∧
    (m.TablesOpen addr' → m'.translate addr' = m.translate addr')

variable {m m' : Machine} {n level k : Nat} {w : Bool} {addr addr' : LinearAddress4Level}

/-! ## The walk by its entries -/

/-- `walkEntry`, given the entries that the walk comes by. -/
def entryFrom (s : Nat → PageMapEntry) : (level : Nat) → Option PageMapEntry
  | 0 => none
  | level + 1 =>
    if (s (level + 1)).present then
      if level = 0 ∨ ((s (level + 1)).hugePage ∧ (level = 1 ∨ level = 2)) then some (s (level + 1))
      else entryFrom s level
    else none

/-- `walk`, given the entries that it comes by. -/
def walkFrom (addr : LinearAddress4Level) (s : Nat → PageMapEntry) : (level : Nat) →
    Option Translation
  | 0 => some ⟨(s 1).pointer, true, true⟩
  | level + 1 =>
    if (s (level + 1)).present then
      if (s (level + 1)).hugePage ∧ (level = 1 ∨ level = 2) then
        some ⟨hugeFrame addr (level + 1) (s (level + 1)), (s (level + 1)).user,
          (s (level + 1)).writable⟩
      else (walkFrom addr s level).map fun t =>
        ⟨t.frame, (s (level + 1)).user && t.user, (s (level + 1)).writable && t.writable⟩
    else none

theorem entryFrom_succ (s : Nat → PageMapEntry) (level : Nat) : entryFrom s (level + 1) =
    if (s (level + 1)).present then
      if level = 0 ∨ ((s (level + 1)).hugePage ∧ (level = 1 ∨ level = 2)) then some (s (level + 1))
      else entryFrom s level
    else none := rfl

theorem walkFrom_succ (addr : LinearAddress4Level) (s : Nat → PageMapEntry) (level : Nat) :
    walkFrom addr s (level + 1) =
      if (s (level + 1)).present then
        if (s (level + 1)).hugePage ∧ (level = 1 ∨ level = 2) then
          some ⟨hugeFrame addr (level + 1) (s (level + 1)), (s (level + 1)).user,
            (s (level + 1)).writable⟩
        else (walkFrom addr s level).map fun t =>
          ⟨t.frame, (s (level + 1)).user && t.user, (s (level + 1)).writable && t.writable⟩
      else none := rfl

theorem Machine.entryAt_of_table (hn : m.tableAt (addr.above level) = some n) :
    m.entryAt addr level = m.mem n (addr.part level) := slot_of_table hn _

/-- From an entry that links to a table the walk goes on to that table. -/
theorem Machine.tableAt_above (hn : m.tableAt (addr.above (level + 1)) = some n) (hlevel : level < 4)
    (hpos : 0 < level) (hpresent : (m.entryAt addr (level + 1)).present = true)
    (hhuge : ¬ ((m.entryAt addr (level + 1)).hugePage = true ∧ (level = 1 ∨ level = 2))) :
    m.tableAt (addr.above level) = some (m.mem n (addr.part (level + 1))).pointer := by
  rw [entryAt_of_table hn] at hpresent hhuge
  have hlength := addr.length_above (level + 1)
  rw [addr.above_eq hlevel, tableAt_cons hn, tableLink_table hpresent (by omega) fun hpos' => ?_]
  exact Bool.eq_false_of_not_eq_true fun h => hhuge ⟨h, by omega⟩

theorem walkEntry_eq (hn : m.tableAt (addr.above level) = some n) (hlevel : level ≤ 4) :
    walkEntry m.mem addr level n = entryFrom (m.entryAt addr) level := by
  induction level generalizing n with
  | zero => rfl
  | succ level ih =>
    have hentry := Machine.entryAt_of_table hn
    rw [walkEntry, entryFrom, ← hentry]
    split
    · next hpresent =>
      split
      · rfl
      · next hlast =>
        obtain ⟨hpos, hhuge⟩ := not_or.mp hlast
        have htable := Machine.tableAt_above hn hlevel (by omega) hpresent hhuge
        rw [hentry]
        exact ih htable (by omega)
    · rfl

theorem walk_eq (hn : m.tableAt (addr.above level) = some n) (hlevel : level ≤ 4) (hpos : 0 < level) :
    walk m.mem addr level n = walkFrom addr (m.entryAt addr) level := by
  induction level generalizing n with
  | zero => omega
  | succ level ih =>
    have hentry := Machine.entryAt_of_table hn
    rw [walk_succ, walkFrom, ← hentry]
    split
    · next hpresent =>
      split
      · rfl
      · next hhuge =>
        rcases Nat.eq_zero_or_pos level with rfl | hpos'
        · rfl
        · have htable := Machine.tableAt_above hn hlevel hpos' hpresent hhuge
          rw [hentry, ih htable (by omega) hpos']
    · rfl

theorem Machine.pageEntry_eq (m : Machine) (addr : LinearAddress4Level) :
    m.pageEntry addr = entryFrom (m.entryAt addr) 4 := walkEntry_eq rfl le_rfl

theorem Machine.translate_eq (m : Machine) (addr : LinearAddress4Level) :
    m.translate addr = walkFrom addr (m.entryAt addr) 4 := walk_eq rfl le_rfl (by decide)

/-- Where the walk does not come to a table, it comes by no entry below either. -/
theorem Machine.entryAt_of_none {l : Nat} (h : m.tableAt (addr.above l) = none) (hl : l ≤ 4)
    (hlevel : level ≤ l) : m.entryAt addr level = 0 := by
  induction l with
  | zero =>
    obtain rfl : level = 0 := Nat.le_zero.mp hlevel
    exact slot_of_none h _
  | succ l ih =>
    rcases hlevel.eq_or_lt with rfl | hlt
    · exact slot_of_none h _
    · refine ih ?_ (by omega) (Nat.le_of_lt_succ hlt)
      rw [addr.above_eq hl, tableAt, nodeAt, ← tableAt, h, Option.bind_none]

theorem Machine.entryAt_below {l : Nat} (habsent : (m.entryAt addr (l + 1)).present = false)
    (hl : l < 4) (hlevel : level ≤ l) : m.entryAt addr level = 0 := by
  refine entryAt_of_none ?_ hl.le hlevel
  rw [addr.above_eq hl]
  cases hn : m.tableAt (addr.above (l + 1)) with
  | none => rw [tableAt, nodeAt, ← tableAt, hn, Option.bind_none]
  | some n =>
    rw [entryAt_of_table hn] at habsent
    rw [tableAt_cons hn, tableLink_absent habsent]

/-- A walk that comes to no huge page comes by no entry that is marked as one. -/
theorem hugePage_of_walk (H : m.WellFormed) (hn : m.tableAt (addr.above level) = some n)
    (hlevel : level ≤ 4) (hwalk : ¬ WalksHuge m.mem addr level n) {l : Nat} (hl : l ≤ level)
    (hl' : l = 2 ∨ l = 3) : (m.entryAt addr l).hugePage = false := by
  induction level generalizing n with
  | zero => omega
  | succ level ih =>
    have hentry := Machine.entryAt_of_table hn
    rw [WalksHuge, ← hentry] at hwalk
    cases hpresent : (m.entryAt addr (level + 1)).present with
    | true =>
      obtain ⟨hhuge, hbelow⟩ := not_or.mp (not_and.mp hwalk hpresent)
      rcases hl.eq_or_lt with rfl | hlt
      · exact Bool.eq_false_of_not_eq_true fun h => hhuge ⟨h, by omega⟩
      · have htable := Machine.tableAt_above hn hlevel (by omega) hpresent hhuge
        rw [← hentry] at htable
        exact ih htable (by omega) hbelow (Nat.le_of_lt_succ hlt)
    | false =>
      rcases hl.eq_or_lt with rfl | hlt
      · rw [hentry] at hpresent ⊢
        refine H.absent _ n _ hn ?_ hpresent
        rw [addr.length_above]
        omega
      · rw [Machine.entryAt_below hpresent hlevel (Nat.le_of_lt_succ hlt), hugePage_zero]

/-! ## Walks without huge pages, and walks by the same pages -/

variable {s s' : Nat → PageMapEntry}

/-- Without huge pages the walk ends at the entry of a page table or nowhere. -/
theorem entryFrom_page (hhuge : ∀ l, l = 2 ∨ l = 3 → (s l).hugePage = false)
    (hbelow : ∀ l, 0 < l → l < 4 → (s (l + 1)).present = false → (s l).present = false)
    (hlevel : level < 4) :
    entryFrom s (level + 1) = if (s 1).present then some (s 1) else none := by
  induction level with
  | zero => simp [entryFrom]
  | succ level ih =>
    have ih := ih (by omega)
    rw [entryFrom]
    cases hpresent : (s (level + 2)).present with
    | true =>
      rw [if_pos rfl, if_neg, ih]
      rintro (h | ⟨h, hl⟩)
      · omega
      · rw [hhuge _ (by omega)] at h
        cases h
    | false =>
      rw [if_neg Bool.false_ne_true, ← ih, entryFrom, hbelow _ (by omega) hlevel hpresent,
        if_neg Bool.false_ne_true]

/-- A walk by tables that allow users everything. -/
theorem walkFrom_page (hhuge : ∀ l, l = 2 ∨ l = 3 → (s l).hugePage = false)
    (hflags : ∀ l, 0 < l → l ≤ 4 → (s l).present = true ∧ (s l).user = true ∧
      (s l).writable = if l = 1 then w else true) (hlevel : level < 4) :
    walkFrom addr s (level + 1) = some ⟨(s 1).pointer, true, w⟩ := by
  induction level with
  | zero =>
    obtain ⟨hpresent, huser, hwritable⟩ := hflags 1 (by decide) (by decide)
    rw [walkFrom, Nat.zero_add, if_pos hpresent, if_neg (by omega), huser, hwritable]
    simp [walkFrom]
  | succ level ih =>
    obtain ⟨hpresent, huser, hwritable⟩ := hflags (level + 2) (by omega) (by omega)
    rw [walkFrom, if_pos hpresent, if_neg, ih (by omega), huser, hwritable, if_neg (by omega)]
    · rfl
    · rintro ⟨h, hl⟩
      rw [hhuge _ (by omega)] at h
      cases h

/-- What setting up other pages leaves of the entries that a walk comes by: some are the same, and the
others are tables, now present and open. -/
structure Passed (s s' : Nat → PageMapEntry) : Prop where
  leaf : s' 1 = s 1
  table : ∀ l, 2 ≤ l → l ≤ 4 → s' l = s l ∨ ((s' l).present = true ∧ (s' l).user = true ∧
    (s' l).writable = true ∧ (l ≤ 3 → (s' l).hugePage = false ∧ (s l).hugePage = false))
  below : ∀ l, 0 < l → l < 4 → (s (l + 1)).present = false → (s l).present = false

namespace Passed

theorem not_huge {l : Nat} {e : PageMapEntry} (hhuge : l + 1 ≤ 3 → e.hugePage = false) :
    ¬ (e.hugePage = true ∧ (l = 1 ∨ l = 2)) := by
  rintro ⟨h, hl⟩
  rw [hhuge (by omega)] at h
  cases h

theorem entryFrom_eq (h : Passed s s') (hlevel : level < 4) :
    entryFrom s' (level + 1) = entryFrom s (level + 1) := by
  induction level with
  | zero => simp [entryFrom, h.leaf]
  | succ level ih =>
    have ih := ih (by omega)
    rw [entryFrom_succ s', entryFrom_succ s]
    rcases h.table (level + 2) (by omega) hlevel with hsame | ⟨hpresent', -, -, hhuge⟩
    · rw [hsame, ih]
    · rw [if_pos hpresent', if_neg (not_or.mpr ⟨by omega, not_huge fun hl => (hhuge hl).1⟩),
        if_neg (not_or.mpr ⟨by omega, not_huge fun hl => (hhuge hl).2⟩), ih]
      split
      · rfl
      · next habsent =>
        have hnone := h.below (level + 1) (by omega) hlevel (Bool.eq_false_of_not_eq_true habsent)
        rw [entryFrom_succ, if_neg (by rw [hnone]; decide)]

/-- The walk ends at the same frame, and with the same rights if the tables were open before. -/
theorem walkFrom_eq (h : Passed s s') (addr : LinearAddress4Level) (hlevel : level ≤ 4) :
    (walkFrom addr s' level).map Translation.frame = (walkFrom addr s level).map Translation.frame ∧
      ((∀ l, 2 ≤ l → l ≤ 4 → (s l).present = true → (l = 4 ∨ (s l).hugePage = false) →
        (s l).user = true ∧ (s l).writable = true) → walkFrom addr s' level = walkFrom addr s level) := by
  induction level with
  | zero =>
    rw [walkFrom, walkFrom, h.leaf]
    exact ⟨rfl, fun _ => rfl⟩
  | succ level ih =>
    obtain ⟨hframe, hwalk⟩ := ih (by omega)
    have hstep : s' (level + 1) = s (level + 1) ∨ (0 < level ∧ (s' (level + 1)).present = true ∧
        (s' (level + 1)).user = true ∧ (s' (level + 1)).writable = true ∧
        (level + 1 ≤ 3 → (s' (level + 1)).hugePage = false ∧ (s (level + 1)).hugePage = false)) := by
      rcases Nat.eq_zero_or_pos level with rfl | hpos
      · exact .inl h.leaf
      · exact (h.table (level + 1) (by omega) hlevel).imp_right fun ht => ⟨hpos, ht⟩
    rw [walkFrom_succ addr s', walkFrom_succ addr s]
    rcases hstep with hsame | ⟨hpos, hpresent', huser', hwritable', hhuge⟩
    · rw [hsame]
      split
      · split
        · exact ⟨rfl, fun _ => rfl⟩
        · refine ⟨?_, fun hopen => by rw [hwalk hopen]⟩
          rw [Option.map_map, Option.map_map]
          exact hframe
      · exact ⟨rfl, fun _ => rfl⟩
    · rw [if_pos hpresent', if_neg (not_huge fun hl => (hhuge hl).1),
        if_neg (not_huge fun hl => (hhuge hl).2)]
      cases hpresent : (s (level + 1)).present with
      | true =>
        rw [if_pos rfl]
        refine ⟨?_, fun hopen => ?_⟩
        · rw [Option.map_map, Option.map_map]
          exact hframe
        · have hflags := hopen (level + 1) (by omega) hlevel hpresent (by
            rcases Nat.lt_or_ge level 3 with hlt | hge
            · exact .inr (hhuge hlt).2
            · exact .inl (by omega))
          rw [hwalk hopen, huser', hwritable', hflags.1, hflags.2]
      | false =>
        have hnone : walkFrom addr s level = none := by
          obtain ⟨l, rfl⟩ := Nat.exists_eq_add_of_le' hpos
          rw [walkFrom_succ, h.below (l + 1) hpos (by omega) hpresent, if_neg Bool.false_ne_true]
        rw [hnone, Option.map_none, Option.map_eq_none_iff] at hframe
        rw [hframe]
        exact ⟨rfl, fun _ => rfl⟩

end Passed

/-! ## The pages of a range -/

namespace LinearAddress4Level

theorem pageNumber_lt (addr : LinearAddress4Level) : addr.pageNumber < 512 ^ 4 := by
  have h1 := addr.page.isLt
  have h2 := addr.dir.isLt
  have h3 := addr.pdp.isLt
  have h4 := addr.pml4.isLt
  rw [pageNumber]
  omega

theorem pageNumber_ofValue {v : Nat} (hv : v < 512 ^ 4) : (ofValue (4096 * v)).pageNumber = v := by
  simp only [ofValue, pageNumber, Fin.ofNat]
  omega

end LinearAddress4Level

/-- The entries that `SetupPageMaps` comes by. -/
def rangeEntries (addr : LinearAddress4Level) (k : Nat) : Set (List (Fin 512)) :=
  entriesBelow (addr.above 4) addr.pageNumber (addr.pageNumber + k)

theorem above_mem_rangeEntries (hlevel : level < 4) : addr'.above level ∈ rangeEntries addr k ↔
    ∃ v, addr.pageNumber ≤ v ∧ v < addr.pageNumber + k ∧ v < 512 ^ 4 ∧
      v / 512 ^ level = addr'.pageNumber / 512 ^ level := by
  have hlength := addr'.length_above level
  have hsub : 4 - (addr'.above level).length = level := by omega
  have hroot : addr.above 4 = [] := rfl
  rw [rangeEntries, hroot, entriesBelow, Set.mem_ofPred_eq, hsub, addr'.pathNumber_above hlevel.le]
  constructor
  · rintro ⟨-, -, v, hav, hve, hv, hvs⟩
    exact ⟨v, hav, hve, by simpa [pathNumber, Nat.div_eq_zero_iff] using hv, hvs⟩
  · rintro ⟨v, hav, hve, hv, hvs⟩
    refine ⟨by rw [List.length_nil]; omega, by omega, v, hav, hve, ?_, hvs⟩
    exact Nat.div_eq_of_lt hv

/-- They are the entries of the pages of the range. -/
theorem exists_of_mem_rangeEntries {s : List (Fin 512)} (h : s ∈ rangeEntries addr k) :
    ∃ addr' level, InPages addr k addr' ∧ level < 4 ∧ s = addr'.above level := by
  obtain ⟨hlt, hle, v, hav, hve, hv, hvs⟩ := h
  have hv' : v < 512 ^ 4 := by simpa [above, pathNumber, Nat.div_eq_zero_iff, place_four] using hv
  have hnumber := pageNumber_ofValue hv'
  refine ⟨ofValue (4096 * v), 4 - s.length, ?_, by omega, ?_⟩
  · rw [InPages, hnumber]
    exact ⟨hav, hve⟩
  · refine pathNumber_inj ?_ ?_
    · rw [length_above]
      omega
    · rw [pathNumber_above _ (by omega), hnumber, hvs]

theorem entry_mem_of_inPages (h : InPages addr k addr') {l : Nat} (hpos : 0 < l) (hl : l ≤ 4) :
    addr'.part l :: addr'.above l ∈ rangeEntries addr k := by
  obtain ⟨l, rfl⟩ := Nat.exists_eq_add_of_le' hpos
  rw [← addr'.above_eq hl, above_mem_rangeEntries hl]
  exact ⟨addr'.pageNumber, h.1, h.2, addr'.pageNumber_lt, rfl⟩

theorem leaf_notMem (h : ¬ InPages addr k addr') :
    addr'.part 1 :: addr'.above 1 ∉ rangeEntries addr k := by
  rw [← addr'.above_eq (by decide), above_mem_rangeEntries (by decide)]
  rintro ⟨v, hav, hve, -, hv⟩
  rw [pow_zero, Nat.div_one, Nat.div_one] at hv
  exact h ⟨hv ▸ hav, hv ▸ hve⟩

theorem hugeFree_of_entries (hhuge : ∀ addr', InPages addr k addr' → ∀ l, l = 2 ∨ l = 3 →
    (m.entryAt addr' l).hugePage = false) :
    HugeFree m (addr.above 4) addr.pageNumber (addr.pageNumber + k) := by
  intro q i hi hpos hlt
  obtain ⟨addr', level, hin, hlevel, hs⟩ := exists_of_mem_rangeEntries hi
  rw [addr'.above_eq hlevel] at hs
  obtain ⟨rfl, rfl⟩ := List.cons.inj hs
  rw [length_above] at hpos hlt
  exact hhuge addr' hin _ (by omega)

theorem hugeFree_of_walks (H : m.WellFormed)
    (hhuge : ∀ addr', InPages addr k addr' → ¬ WalksHuge m.mem addr' 4 m.cr3) :
    HugeFree m (addr.above 4) addr.pageNumber (addr.pageNumber + k) :=
  hugeFree_of_entries fun addr' hin _ hl =>
    hugePage_of_walk H rfl le_rfl (hhuge addr' hin) (by omega) hl

/-! ## The result -/

theorem HugeFree.entryAt (h : HugeFree m (addr.above 4) addr.pageNumber (addr.pageNumber + k))
    (hin : InPages addr k addr') {l : Nat} (hl : l = 2 ∨ l = 3) :
    (m.entryAt addr' l).hugePage = false := by
  refine h _ _ (entry_mem_of_inPages hin (by omega) (by omega)) ?_ ?_ <;>
    rw [addr'.length_above] <;> omega

/-- A walk without huge pages ends at an entry of a page table. -/
theorem Machine.pageEntry_page (hhuge : ∀ l, l = 2 ∨ l = 3 → (m.entryAt addr l).hugePage = false) :
    m.pageEntry addr = if (m.entryAt addr 1).present then some (m.entryAt addr 1) else none := by
  rw [pageEntry_eq]
  refine entryFrom_page hhuge (fun l _ hl habsent => ?_) (by decide)
  rw [entryAt_below habsent hl le_rfl, present_zero]

namespace SetsUpEntries

theorem entryAt_flags (S : SetsUpEntries w (rangeEntries addr k) m m') (h : InPages addr k addr')
    {l : Nat} (hpos : 0 < l) (hl : l ≤ 4) :
    (m'.entryAt addr' l).present = true ∧ (m'.entryAt addr' l).user = true ∧
      (m'.entryAt addr' l).writable = if l = 1 then w else true := by
  have hflags := S.flags _ _ (entry_mem_of_inPages h hpos hl)
  rw [addr'.length_above] at hflags
  rw [show (if l = 1 then w else true) = if 4 - l = 3 then w else true by
    congr 1
    exact propext (by omega)]
  exact hflags

variable (S : SetsUpEntries w (rangeEntries addr k) m m')
  (hhuge : HugeFree m (addr.above 4) addr.pageNumber (addr.pageNumber + k))
include S hhuge

theorem entryAt_huge (h : InPages addr k addr') {l : Nat} (hl : l = 2 ∨ l = 3) :
    (m'.entryAt addr' l).hugePage = false :=
  (S.hugePage _ _).trans (hhuge.entryAt h hl)

theorem pageEntry_after (h : InPages addr k addr') : m'.pageEntry addr' = some (m'.entryAt addr' 1) := by
  rw [Machine.pageEntry_page fun l hl => S.entryAt_huge hhuge h hl,
    if_pos (S.entryAt_flags h (by decide) (by decide)).1]

/-- A walk to another page passes the tables of the range only. -/
theorem passed (h : ¬ InPages addr k addr') : Passed (m.entryAt addr') (m'.entryAt addr') where
  leaf := S.other _ _ (leaf_notMem h)
  table l hl hl' := by
    by_cases hmem : addr'.part l :: addr'.above l ∈ rangeEntries addr k
    · obtain ⟨hpresent, huser, hwritable⟩ := S.flags _ _ hmem
      have hlength := addr'.length_above l
      rw [if_neg (by omega)] at hwritable
      refine .inr ⟨hpresent, huser, hwritable, fun hle => ?_⟩
      have hfree := hhuge _ _ hmem (by omega) (by omega)
      exact ⟨(S.hugePage _ _).trans hfree, hfree⟩
    · exact .inl (S.other _ _ hmem)
  below l _ hl habsent := by rw [Machine.entryAt_below habsent hl le_rfl, present_zero]

theorem pagesSetUp (H : m.WellFormed) : PagesSetUp w addr k m m' where
  mapped addr' h := by
    obtain ⟨-, huser, hwritable⟩ := S.entryAt_flags h (by decide : 0 < 1) (by decide)
    refine ⟨m'.entryAt addr' 1, S.pageEntry_after hhuge h, huser, hwritable, ?_⟩
    rw [Machine.translate_eq]
    exact walkFrom_page (fun l hl => S.entryAt_huge hhuge h hl) (fun l => S.entryAt_flags h) (by decide)
  kept addr' e h he := by
    rw [Machine.pageEntry_page fun l hl => hhuge.entryAt h hl, Option.ite_none_right_eq_some] at he
    obtain ⟨hpresent, he⟩ := he
    obtain rfl := Option.some.inj he
    obtain ⟨hfree, htable⟩ := H.page_of_slot (addr'.length_above 1) hpresent
    exact ⟨m'.entryAt addr' 1, S.pageEntry_after hhuge h, (S.kept _ _ hpresent).2,
      (S.frames _ hfree htable).1⟩
  fresh addr' e h hnone he := by
    rw [Machine.pageEntry_page fun l hl => hhuge.entryAt h hl, ite_eq_right_iff] at hnone
    have habsent := Bool.eq_false_of_not_eq_true fun hpresent => Option.some_ne_none _ (hnone hpresent)
    obtain rfl := Option.some.inj ((S.pageEntry_after hhuge h).symm.trans he)
    exact S.fresh _ _ (entry_mem_of_inPages h (by decide) (by decide)) (addr'.length_above 1) habsent
  distinct addr₁ addr₂ e₁ e₂ h₁ h₂ hnone₁ hnone₂ he₁ he₂ hne := by
    have habsent {addr' : LinearAddress4Level} (h : InPages addr k addr')
        (hnone : m.pageEntry addr' = none) : (m.entryAt addr' 1).present = false := by
      rw [Machine.pageEntry_page fun l hl => hhuge.entryAt h hl, ite_eq_right_iff] at hnone
      exact Bool.eq_false_of_not_eq_true fun hpresent => Option.some_ne_none _ (hnone hpresent)
    obtain rfl := Option.some.inj ((S.pageEntry_after hhuge h₁).symm.trans he₁)
    obtain rfl := Option.some.inj ((S.pageEntry_after hhuge h₂).symm.trans he₂)
    refine S.distinct _ _ _ _ (entry_mem_of_inPages h₁ (by decide) (by decide))
      (entry_mem_of_inPages h₂ (by decide) (by decide)) (addr₁.length_above 1) (addr₂.length_above 1)
      (habsent h₁ hnone₁) (habsent h₂ hnone₂) fun heq => hne ?_
    have hnumber := congrArg pathNumber heq
    rw [← addr₁.above_eq (by decide), ← addr₂.above_eq (by decide), pathNumber_above _ (by decide),
      pathNumber_above _ (by decide), pow_zero, Nat.div_one, Nat.div_one] at hnumber
    exact hnumber
  others addr' h := by
    have hpassed := S.passed hhuge h
    obtain ⟨hframe, hwalk⟩ := hpassed.walkFrom_eq addr' le_rfl
    rw [Machine.pageEntry_eq, Machine.pageEntry_eq, Machine.translate_eq, Machine.translate_eq]
    exact ⟨hpassed.entryFrom_eq (by decide), hframe, hwalk⟩

end SetsUpEntries

theorem setupPageMaps_setsUp (H : m.WellFormed) (hend : m.memoryManager.rangeEnd ≤ 2 ^ 40)
    (hfree : HugeFree m (addr.above 4) addr.pageNumber (addr.pageNumber + k))
    (hok : (m.setupPageMaps addr k w).1 = .kSuccess) :
    SetsUpEntries w (rangeEntries addr k) m (m.setupPageMaps addr k w).2 :=
  (setupPageMap_range le_rfl (by decide : 0 < 4) ⟨H, hend, rfl, hfree⟩ hok).2

/-- `SetupPageMaps` of any range of pages. -/
theorem setupPageMaps_maps (H : m.WellFormed) (hend : m.memoryManager.rangeEnd ≤ 2 ^ 40)
    (hhuge : ∀ addr', InPages addr k addr' → ¬ WalksHuge m.mem addr' 4 m.cr3)
    (hok : (m.setupPageMaps addr k w).1 = .kSuccess) :
    PagesSetUp w addr k m (m.setupPageMaps addr k w).2 ∧
      (m.setupPageMaps addr k w).2.WellFormed := by
  have hfree := hugeFree_of_walks H hhuge
  have S := setupPageMaps_setsUp H hend hfree hok
  exact ⟨S.pagesSetUp hfree H, S.wellFormed⟩

/-- An empty PML4 in frame 1, and the frames from 2 on free. -/
def emptyMachine : Machine where
  mem := fun _ _ => 0
  memoryManager := {
    allocMap := fun line => if line = 0 then 0x3 else 0
    rangeBegin := 1
    rangeEnd := 64 }
  cr3 := 1
  freed := []

theorem emptyMachine_tableAt {p : List (Fin 512)} (h : emptyMachine.tableAt p = some n) : p = [] ∧ n = 1 := by
  cases p with
  | nil => exact ⟨rfl, (Option.some.inj h).symm⟩
  | cons i p =>
    obtain ⟨n', -, hlink⟩ := nodeAt_parent h
    rw [emptyMachine, tableLink_absent present_zero] at hlink
    cases hlink

theorem emptyMachine_wellFormed : emptyMachine.WellFormed where
  apart p q n hp hq := (emptyMachine_tableAt hp).1.trans (emptyMachine_tableAt hq).1.symm
  allocated p n hn := by
    rw [(emptyMachine_tableAt hn).2]
    decide +kernel
  absent _ _ _ _ _ _ := hugePage_zero
  page p n i hn hp := by
    rw [(emptyMachine_tableAt hn).1] at hp
    cases hp

/-- The last page below the border of 1 GiB and the first one above it. -/
theorem setupPageMaps_maps_border :
    PagesSetUp false ⟨0, 511, 511, 0, 256, 65535⟩ 2 emptyMachine
        (emptyMachine.setupPageMaps ⟨0, 511, 511, 0, 256, 65535⟩ 2 false).2 ∧
      (emptyMachine.setupPageMaps ⟨0, 511, 511, 0, 256, 65535⟩ 2 false).2.WellFormed := by
  refine setupPageMaps_maps emptyMachine_wellFormed (by decide) (fun addr' _ h => ?_) (by decide +kernel)
  exact absurd (present_zero.symm.trans h.1) (by decide)

end MikanOS
