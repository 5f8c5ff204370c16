import MikanOS.Paging.TableTree

/-! # Setting up any range of pages

`SetupPageMaps` of pages that may lie in any number of tables, with whatever is present among them. A
canonical address is known by the number of its page, whose digits to the base 512 are the indices. -/

namespace MikanOS

open PageMapEntry LinearAddress4Level Memory PathTree

/-- The number that the indices of a path stand for. -/
def pathNumber : List (Fin 512) → Nat
  | [] => 0
  | i :: p => 512 * pathNumber p + i

/-- The number of the page around an address within the address space. -/
def LinearAddress4Level.pageNumber (addr : LinearAddress4Level) : Nat :=
  addr.page + 512 * (addr.dir + 512 * (addr.pdp + 512 * addr.pml4))

/-- The path to the table of some level that is walked through for an address. -/
def LinearAddress4Level.above (addr : LinearAddress4Level) (level : Nat) : List (Fin 512) :=
  (addr.place 4).drop level

/-- The entries below a table on the way to the pages from `a` up to `e`, those of the pages included. -/
def entriesBelow (p : List (Fin 512)) (a e : Nat) : Set (List (Fin 512)) :=
  {s | p.length < s.length ∧ s.length ≤ 4 ∧ ∃ v, a ≤ v ∧ v < e ∧
    v / 512 ^ (4 - p.length) = pathNumber p ∧ v / 512 ^ (4 - s.length) = pathNumber s}

variable {m m' m₁ : Machine} {n c k a e level : Nat} {p q : List (Fin 512)} {i j : Fin 512} {w : Bool}
  {addr : LinearAddress4Level}

theorem pathNumber_inj (hlength : p.length = q.length) (h : pathNumber p = pathNumber q) : p = q := by
  induction p generalizing q with
  | nil => exact (List.length_eq_zero_iff.mp hlength.symm).symm
  | cons i p ih =>
    obtain ⟨j, q, rfl⟩ := List.exists_cons_of_length_eq_add_one hlength.symm
    rw [pathNumber, pathNumber] at h
    have hi := i.isLt
    have hj := j.isLt
    obtain rfl : p = q := ih (Nat.succ.inj hlength) (by omega)
    rw [Fin.ext (by omega : i.val = j.val)]

namespace LinearAddress4Level

theorem above_eq (addr : LinearAddress4Level) (h : level < 4) :
    addr.above level = addr.part (level + 1) :: addr.above (level + 1) := by
  rcases level with _ | _ | _ | _ | level
  · rfl
  · rfl
  · rfl
  · rfl
  · omega

theorem length_above (addr : LinearAddress4Level) (level : Nat) :
    (addr.above level).length = 4 - level := by
  rw [above, List.length_drop]
  rfl

theorem pathNumber_above (addr : LinearAddress4Level) (h : level ≤ 4) :
    pathNumber (addr.above level) = addr.pageNumber / 512 ^ level := by
  have h1 := addr.page.isLt
  have h2 := addr.dir.isLt
  have h3 := addr.pdp.isLt
  have h4 := addr.pml4.isLt
  rcases level with _ | _ | _ | _ | _ | level
  · change 512 * (512 * (512 * (512 * 0 + addr.pml4.val) + addr.pdp) + addr.dir) + addr.page = _
    rw [pageNumber]
    omega
  · change 512 * (512 * (512 * 0 + addr.pml4.val) + addr.pdp) + addr.dir = _
    rw [pageNumber]
    omega
  · change 512 * (512 * 0 + addr.pml4.val) + addr.pdp = _
    rw [pageNumber]
    omega
  · change 512 * 0 + addr.pml4.val = _
    rw [pageNumber]
    omega
  · change 0 = _
    rw [pageNumber]
    omega
  · omega

theorem succ_val {i : Fin 512} (h : i ≠ 511) : (i + 1).val = i.val + 1 := by
  have hne : i.val ≠ 511 := fun hval => h (Fin.ext hval)
  have hlt := i.isLt
  rw [Fin.val_add_eq_of_add_lt]
  · rfl
  · have : (1 : Fin 512).val = 1 := rfl
    omega

/-- Going on to the next entry: the indices above stay, and those below start again. -/
theorem nextEntry_spec (h : level < 4) (hlast : addr.part (level + 1) ≠ 511) :
    (addr.nextEntry (level + 1)).above (level + 1) = addr.above (level + 1) ∧
      (addr.nextEntry (level + 1)).pageNumber = (addr.pageNumber / 512 ^ level + 1) * 512 ^ level ∧
      ((addr.nextEntry (level + 1)).part (level + 1)).val = (addr.part (level + 1)).val + 1 := by
  have h1 := addr.page.isLt
  have h2 := addr.dir.isLt
  have h3 := addr.pdp.isLt
  have hzero : (0 : Fin 512).val = 0 := rfl
  rcases level with _ | _ | _ | _ | level
  · have hnext : addr.nextEntry 1 = { addr with page := addr.page + 1 } := rfl
    have hval : (addr.page + 1).val = addr.page.val + 1 := succ_val hlast
    refine ⟨rfl, ?_, hval⟩
    rw [hnext, pageNumber, pageNumber]
    dsimp only
    omega
  · have hnext : addr.nextEntry 2 = { addr with dir := addr.dir + 1, page := 0 } := rfl
    have hval : (addr.dir + 1).val = addr.dir.val + 1 := succ_val hlast
    refine ⟨rfl, ?_, hval⟩
    rw [hnext, pageNumber, pageNumber]
    dsimp only
    omega
  · have hnext : addr.nextEntry 3 = { addr with pdp := addr.pdp + 1, dir := 0, page := 0 } := rfl
    have hval : (addr.pdp + 1).val = addr.pdp.val + 1 := succ_val hlast
    refine ⟨rfl, ?_, hval⟩
    rw [hnext, pageNumber, pageNumber]
    dsimp only
    omega
  · have hnext : addr.nextEntry 4 =
      { addr with pml4 := addr.pml4 + 1, pdp := 0, dir := 0, page := 0 } := rfl
    have hval : (addr.pml4 + 1).val = addr.pml4.val + 1 := succ_val hlast
    refine ⟨rfl, ?_, hval⟩
    rw [hnext, pageNumber, pageNumber]
    dsimp only
    omega
  · omega

end LinearAddress4Level

/-! ## The entries on the way -/

theorem entriesBelow_empty (h : e ≤ a) : entriesBelow p a e = ∅ := by
  refine Set.eq_empty_of_forall_notMem fun s hs => ?_
  obtain ⟨-, -, v, hav, hve, -⟩ := hs
  omega

theorem entriesBelow_page (hp : p.length = 4) : entriesBelow p a e = ∅ := by
  refine Set.eq_empty_of_forall_notMem fun s hs => ?_
  obtain ⟨hlt, hle, -⟩ := hs
  omega

/-- The entries below a table: the first one, those below it, and those from the next one on. -/
theorem entriesBelow_split (hp : p.length + (level + 1) = 4) (ha : a / 512 ^ level = pathNumber (i :: p))
    (hae : a < e) : entriesBelow p a e = {i :: p} ∪ entriesBelow (i :: p) a e ∪
      entriesBelow p ((a / 512 ^ level + 1) * 512 ^ level) e := by
  have hpow : 0 < 512 ^ level := Nat.pow_pos (by decide)
  have hlevel : 4 - p.length = level + 1 := by omega
  have hlevel' : 4 - (i :: p).length = level := by
    rw [List.length_cons]
    omega
  have hup (v : Nat) : v / 512 ^ (level + 1) = v / 512 ^ level / 512 := by
    rw [pow_succ, Nat.div_div_eq_div_mul]
  have hi := i.isLt
  have hparent : pathNumber (i :: p) / 512 = pathNumber p := by
    rw [pathNumber]
    omega
  ext s
  constructor
  · rintro ⟨hlt, hle, v, hav, hve, hvp, hvs⟩
    by_cases hv : v / 512 ^ level = a / 512 ^ level
    · refine .inl ?_
      by_cases hs : s.length = p.length + 1
      · refine .inl (pathNumber_inj hs ?_)
        rw [← hvs, ← ha, ← hv, hs, show 4 - (p.length + 1) = level by omega]
      · exact .inr ⟨by rw [List.length_cons]; omega, hle, v, hav, hve, by rw [hlevel', hv, ha], hvs⟩
    · have hlt' : a / 512 ^ level + 1 ≤ v / 512 ^ level :=
        Nat.lt_of_le_of_ne (Nat.div_le_div_right hav) (Ne.symm hv)
      exact .inr ⟨hlt, hle, v, (Nat.le_div_iff_mul_le hpow).mp hlt', hve, hvp, hvs⟩
  · rintro ((hs | ⟨hlt, hle, v, hav, hve, hvp, hvs⟩) | ⟨hlt, hle, v, hav, hve, hvp, hvs⟩)
    · rw [Set.mem_singleton_iff.mp hs]
      refine ⟨Nat.lt_succ_self _, by rw [List.length_cons]; omega, a, le_rfl, hae, ?_, ?_⟩
      · rw [hlevel, hup, ha, hparent]
      · rw [hlevel', ha]
    · rw [List.length_cons] at hlt
      rw [hlevel'] at hvp
      refine ⟨by omega, hle, v, hav, hve, ?_, hvs⟩
      rw [hlevel, hup, hvp, hparent]
    · have hle' : a ≤ (a / 512 ^ level + 1) * 512 ^ level := by
        rw [Nat.mul_comm]
        exact (Nat.lt_mul_div_succ a hpow).le
      exact ⟨hlt, hle, v, hle'.trans hav, hve, hvp, hvs⟩

/-- Behind the last entry of a table there is nothing left below it. -/
theorem entriesBelow_last (hp : p.length + (level + 1) = 4)
    (ha : a / 512 ^ level = pathNumber (511 :: p)) :
    entriesBelow p ((a / 512 ^ level + 1) * 512 ^ level) e = ∅ := by
  refine Set.eq_empty_of_forall_notMem fun s hs => ?_
  obtain ⟨-, -, v, hav, -, hvp, -⟩ := hs
  have hle := (Nat.le_div_iff_mul_le (Nat.pow_pos (by decide))).mpr hav
  rw [show 4 - p.length = level + 1 by omega, pow_succ, ← Nat.div_div_eq_div_mul] at hvp
  have h511 : (511 : Fin 512).val = 511 := rfl
  rw [pathNumber] at ha
  omega

theorem entriesBelow_rest : entriesBelow p a (a + (e - a)) = entriesBelow p a e := by
  rcases Nat.le_total a e with h | h
  · rw [Nat.add_sub_cancel' h]
  · rw [Nat.sub_eq_zero_of_le h, Nat.add_zero, entriesBelow_empty h, entriesBelow_empty le_rfl]

/-! ## The loops -/

/-- One turn of the loop of `SetupPageMap`. -/
theorem setupLoop_turn
    {setupChild : Nat → LinearAddress4Level → Nat → Machine → WithError Nat × Machine} {turns : Nat}
    (hk : k ≠ 0)
    (hlink : m.setNewPageMapIfNotPresent n (addr.part level) = (⟨c, .kSuccess⟩, m₁)) :
    Machine.setupLoop setupChild n level w (turns + 1) addr k m =
      let m₂ := m₁.setLeafFlags n (addr.part level) (if level = 1 then w else true)
      let r := if level = 1 then (⟨k - 1, .kSuccess⟩, m₂) else setupChild c addr k m₂
      if r.1.error = .kSuccess then
        if addr.part level = 511 then r
        else Machine.setupLoop setupChild n level w turns (addr.nextEntry level) r.1.value r.2
      else (⟨k, r.1.error⟩, r.2) := by
  rw [Machine.setupLoop, if_neg hk]
  simp only [hlink, if_true]
  by_cases hlevel : level = 1
  · simp only [if_pos hlevel]
    rfl
  · simp only [if_neg hlevel]
    rfl

theorem setupLoop_fails
    {setupChild : Nat → LinearAddress4Level → Nat → Machine → WithError Nat × Machine} {turns : Nat}
    (hk : k ≠ 0) (herr : (m.setNewPageMapIfNotPresent n (addr.part level)).1.error ≠ .kSuccess) :
    (Machine.setupLoop setupChild n level w (turns + 1) addr k m).1.error ≠ .kSuccess := by
  rw [Machine.setupLoop, if_neg hk]
  simp only [if_neg herr]
  exact herr

/-- No entry of a page directory or a PDP table on the way to the pages is marked as a huge page. -/
def HugeFree (m : Machine) (p : List (Fin 512)) (a e : Nat) : Prop :=
  ∀ q i, i :: q ∈ entriesBelow p a e → 0 < q.length → q.length < 3 → (m.slot q i).hugePage = false

theorem HugeFree.mono {T : Set (List (Fin 512))} (h : HugeFree m p a e) (S : SetsUpEntries w T m m')
    {q : List (Fin 512)} {b : Nat} (hsub : entriesBelow q b e ⊆ entriesBelow p a e) :
    HugeFree m' q b e := by
  intro q' i hi hpos hlt
  rw [S.hugePage]
  exact h q' i (hsub hi) hpos hlt

/-- The entry that an address has in a table: what is left to do is below it and behind it. -/
theorem Touched.child {b : Bool} (t : Touched b n c i m m') (H : m.WellFormed) (hn : m.tableAt p = some n)
    (hp : p.length < 3) (hhuge : 0 < p.length → (m.slot p i).hugePage = false) :
    m'.tableAt (i :: p) = some c := by
  rw [Machine.slot_of_table hn, ← t.hugePage] at hhuge
  rw [Machine.tableAt_cons (t.table H hn hn), tableLink_table t.present hp hhuge, t.pointer]

/-- What `SetupPageMap` on a table does when it succeeds: it sets up the pages up to `e` that lie below
the table, and gives back how many are left. -/
def SetsUpTable (w : Bool) (level : Nat) (addr : LinearAddress4Level) (k : Nat) (m : Machine)
    (r : WithError Nat × Machine) : Prop :=
  r.1.value = addr.pageNumber + k - (addr.pageNumber / 512 ^ level + 1) * 512 ^ level ∧
    SetsUpEntries w (entriesBelow (addr.above level) addr.pageNumber (addr.pageNumber + k)) m r.2

/-- A call of `SetupPageMap` on a table of some level with what it needs. -/
structure TableCall (level n : Nat) (addr : LinearAddress4Level) (k : Nat) (m : Machine) : Prop where
  wellFormed : m.WellFormed
  rangeEnd : m.memoryManager.rangeEnd ≤ 2 ^ 40
  table : m.tableAt (addr.above level) = some n
  hugeFree : HugeFree m (addr.above level) addr.pageNumber (addr.pageNumber + k)

theorem setupLoop_range
    {setupChild : Nat → LinearAddress4Level → Nat → Machine → WithError Nat × Machine} {turns : Nat}
    (hlevel : level < 4)
    (hchild : 0 < level → ∀ c addr k m, TableCall level c addr k m →
      (setupChild c addr k m).1.error = .kSuccess → SetsUpTable w level addr k m (setupChild c addr k m))
    (C : TableCall (level + 1) n addr k m) (hturns : 512 ≤ turns + (addr.part (level + 1)).val)
    (hok : (Machine.setupLoop setupChild n (level + 1) w turns addr k m).1.error = .kSuccess) :
    SetsUpTable w (level + 1) addr k m
      (Machine.setupLoop setupChild n (level + 1) w turns addr k m) := by
  induction turns generalizing addr k m with
  | zero =>
    have := (addr.part (level + 1)).isLt
    omega
  | succ turns ih =>
    have hpow : 0 < 512 ^ (level + 1) := Nat.pow_pos (by decide)
    rcases Nat.eq_zero_or_pos k with rfl | hk
    · rw [setupLoop_zero, SetsUpTable, Nat.add_zero, entriesBelow_empty le_rfl]
      refine ⟨(Nat.sub_eq_zero_of_le ?_).symm, .refl C.wellFormed⟩
      rw [Nat.mul_comm]
      exact (Nat.lt_mul_div_succ _ hpow).le
    by_cases herr : (m.setNewPageMapIfNotPresent n (addr.part (level + 1))).1.error = .kSuccess
    swap
    · exact absurd hok (setupLoop_fails hk.ne' herr)
    have hlength : (addr.above (level + 1)).length = 4 - (level + 1) := addr.length_above (level + 1)
    generalize hb : (if level + 1 = 1 then w else true) = b
    have hb' : b = if (addr.above (level + 1)).length = 3 then w else true := by
      rw [← hb]
      congr 1
      exact propext (by omega)
    obtain ⟨c, m₁, hlink, t⟩ := setNewPageMap_touches b (C.wellFormed.allocated _ _ C.table)
      (addr.part (level + 1)) C.rangeEnd herr
    have S := t.setsUpEntries (w := w) C.wellFormed C.table hb'
    have ha := (addr.pathNumber_above hlevel.le).symm
    rw [addr.above_eq hlevel] at ha
    have hsplit := entriesBelow_split (e := addr.pageNumber + k) (by omega) ha (by omega)
    rw [setupLoop_turn hk.ne' hlink, hb] at hok ⊢
    generalize m₁.setLeafFlags n (addr.part (level + 1)) b = m₂ at t S hok ⊢
    dsimp only at hok ⊢
    generalize hr : (if level + 1 = 1 then ((⟨k - 1, .kSuccess⟩ : WithError Nat), m₂)
      else setupChild c addr k m₂) = r at hok ⊢
    by_cases hrerr : r.1.error = .kSuccess
    swap
    · rw [if_neg hrerr] at hok
      exact absurd hok hrerr
    rw [if_pos hrerr] at hok ⊢
    -- the pages below the entry
    have hsub : entriesBelow (addr.above level) addr.pageNumber (addr.pageNumber + k) ⊆
        entriesBelow (addr.above (level + 1)) addr.pageNumber (addr.pageNumber + k) := by
      rw [hsplit, ← addr.above_eq hlevel]
      exact fun s hs => .inl (.inr hs)
    have hbelow : SetsUpTable w level addr k m₂ r := by
      rcases Nat.eq_zero_or_pos level with rfl | hpos
      · rw [if_pos rfl] at hr
        rw [← hr, SetsUpTable, entriesBelow_page (by rw [addr.length_above]), pow_zero, Nat.div_one,
          Nat.mul_one]
        refine ⟨?_, .refl S.wellFormed⟩
        change k - 1 = _
        omega
      · rw [if_neg (by omega)] at hr
        rw [← hr] at hrerr ⊢
        refine hchild hpos c addr k m₂ ⟨S.wellFormed, S.rangeEnd ▸ C.rangeEnd, ?_, C.hugeFree.mono S hsub⟩ hrerr
        rw [addr.above_eq hlevel]
        refine t.child C.wellFormed C.table (by omega) fun hp => ?_
        refine C.hugeFree _ _ ?_ hp (by omega)
        rw [hsplit]
        exact .inl (.inl rfl)
    obtain ⟨hvalue, hentries⟩ := hbelow
    rw [addr.above_eq hlevel] at hentries
    have S' := S.trans hentries
    by_cases hlast : addr.part (level + 1) = 511
    · rw [if_pos hlast] at hok ⊢
      rw [hlast] at ha hsplit S'
      rw [entriesBelow_last (by omega) ha, Set.union_empty] at hsplit
      rw [SetsUpTable, hsplit]
      refine ⟨?_, S'⟩
      have h511 : (511 : Fin 512).val = 511 := rfl
      rw [pathNumber] at ha
      rw [hvalue, pow_succ, ← Nat.div_div_eq_div_mul, ha, h511]
      congr 1
      rw [Nat.mul_comm (512 ^ level), ← Nat.mul_assoc]
      congr 1
      omega
    · rw [if_neg hlast] at hok ⊢
      obtain ⟨habove, hnumber, hpart⟩ := nextEntry_spec hlevel hlast
      have hrest : entriesBelow (addr.above (level + 1)) (addr.nextEntry (level + 1)).pageNumber
          ((addr.nextEntry (level + 1)).pageNumber + r.1.value) =
            entriesBelow (addr.above (level + 1))
              ((addr.pageNumber / 512 ^ level + 1) * 512 ^ level) (addr.pageNumber + k) := by
        rw [hvalue, ← hnumber, entriesBelow_rest]
      have C' : TableCall (level + 1) n (addr.nextEntry (level + 1)) r.1.value r.2 := by
        refine ⟨S'.wellFormed, S'.rangeEnd ▸ C.rangeEnd, ?_, ?_⟩
        · rw [habove]
          exact S'.table _ _ C.table
        · intro q i hi hpos hlt
          rw [habove, hrest] at hi
          rw [S'.hugePage]
          refine C.hugeFree q i ?_ hpos hlt
          rw [hsplit]
          exact .inr hi
      obtain ⟨hvalue', hentries'⟩ := ih C' (by rw [hpart]; omega) hok
      rw [habove, hrest] at hentries'
      refine ⟨?_, hsplit ▸ S'.trans hentries'⟩
      have hsame : (addr.nextEntry (level + 1)).pageNumber / 512 ^ (level + 1) =
          addr.pageNumber / 512 ^ (level + 1) := by
        rw [← pathNumber_above _ hlevel, habove, pathNumber_above _ hlevel]
      have hend := Nat.lt_mul_div_succ (addr.nextEntry (level + 1)).pageNumber hpow
      rw [hsame, Nat.mul_comm] at hend
      rw [hvalue', hsame, hvalue, ← hnumber]
      omega

/-- `SetupPageMap` on a table. -/
theorem setupPageMap_range (hlevel : level ≤ 4) (hpos : 0 < level) (C : TableCall level n addr k m)
    (hok : (Machine.setupPageMap w level n addr k m).1.error = .kSuccess) :
    SetsUpTable w level addr k m (Machine.setupPageMap w level n addr k m) := by
  induction level generalizing n addr k m with
  | zero => exact absurd hpos (Nat.lt_irrefl 0)
  | succ level ih =>
    exact setupLoop_range hlevel (fun hpos' c addr k m C' hok' => ih (by omega) hpos' C' hok') C
      (Nat.le_add_right 512 _) hok

end MikanOS
