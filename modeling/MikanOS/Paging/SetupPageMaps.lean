import MikanOS.Paging.CopyOnWrite

/-! # Setting up pages

`SetupPageMaps` for pages of one page table that are not mapped yet: it builds up the tree of `T`. -/

namespace MikanOS

open PageMapEntry LinearAddress4Level Memory Store

variable {M T n r level : Nat} {p : List (Fin 512)} {i : Fin 512} {m m' : Machine}
  {o o' : Nat → Option Place} {addr addr' : LinearAddress4Level}

/-- The entry after the assignments of `SetupPageMap` to its flags. -/
def Machine.setFlags (m : Machine) (n : Nat) (i : Fin 512) : Machine :=
  let m := m.setEntry n i ((m.mem n i).setUser true)
  m.setEntry n i ((m.mem n i).setWritable true)

/-- Owners stay, and the pages of `T` are as they were or new and empty. -/
structure Kept (T : Nat) (m : Machine) (o : Nat → Option Place) (m' : Machine)
    (o' : Nat → Option Place) : Prop where
  owner : ∀ f place, o f = some place → o' f = some place
  page : ∀ f q, o f = some (T, q) → q.length = 4 → m'.mem f = m.mem f
  fresh : ∀ f q, o' f = some (T, q) → q.length = 4 → o f = some (T, q) ∨ m'.mem f = fun _ => 0

theorem Kept.refl : Kept T m o m o := ⟨fun _ _ hf => hf, fun _ _ _ _ => rfl, fun _ _ hf _ => .inl hf⟩

theorem Kept.trans {m'' : Machine} {o'' : Nat → Option Place} (h : Kept T m o m' o')
    (h' : Kept T m' o' m'' o'') : Kept T m o m'' o'' := by
  refine ⟨fun f place hf => h'.owner f place (h.owner f place hf), fun f q hf hq => ?_, fun f q hf hq => ?_⟩
  · rw [h'.page f q (h.owner f _ hf) hq, h.page f q hf hq]
  · rcases h'.fresh f q hf hq with hf' | hzero
    · rw [h'.page f q hf' hq]
      exact h.fresh f q hf' hq
    · exact .inr hzero

/-- What an entry is after it was filled or found: it links a node of the tree, and nothing else of the
table has changed. -/
structure Linked (M T n c : Nat) (p : List (Fin 512)) (i : Fin 512) (m : Machine)
    (o : Nat → Option Place) (m' : Machine) (o' : Nat → Option Place) : Prop where
  builds : Builds M T m o m' o'
  child : o' c = some (T, i :: p)
  present : (m'.mem n i).present = true
  user : (m'.mem n i).user = true
  writable : (m'.mem n i).writable = true
  pointer : (m'.mem n i).pointer = c
  other : ∀ j, j ≠ i → m'.mem n j = m.mem n j
  owners : ∀ f q, o' f = some (T, q) → o f = some (T, q) ∨ q = i :: p
  found : (m.mem n i).present = true → m' = m
  filled : (m.mem n i).present = false → m'.mem c = fun _ => 0
  kept : Kept T m o m' o'

theorem linkEntry_spec (H : WellOwned M (m.store o)) (hn : o n = some (T, p)) (hp : p.length ≤ 3)
    (htr : Tracked p i) (habsent : p.length = 3 → (m.mem n i).present = false)
    (hend : m.memoryManager.rangeEnd ≤ 2 ^ 40) :
    m.setNewPageMapIfNotPresent n i = (⟨0, .kNoEnoughMemory⟩, m) ∨
      ∃ c m₁ o', m.setNewPageMapIfNotPresent n i = (⟨c, .kSuccess⟩, m₁) ∧
        Linked M T n c p i m o (m₁.setFlags n i) o' := by
  rw [Machine.setNewPageMapIfNotPresent]
  cases hpres : (m.mem n i).present with
  | true =>
    have hp3 : p.length < 3 := by
      refine lt_of_le_of_ne hp fun h => ?_
      rw [habsent h] at hpres
      cases hpres
    obtain ⟨-, hflags⟩ := H.table n T p i hn hp3 htr
    obtain ⟨huser, hwritable⟩ := hflags hpres
    have hsame : m.setFlags n i = m := by
      simp only [Machine.setFlags, Machine.setEntry, setEntry_self, setEntry_setEntry]
      rw [setUser_of_user huser, setWritable_of_writable hwritable, setEntry_eq_self _ rfl]
    refine .inr ⟨(m.mem n i).pointer, m, o, if_pos rfl, ?_⟩
    rw [hsame]
    exact ⟨.refl, H.child hn hp3 htr hpres, hpres, huser, hwritable, rfl, fun _ _ => rfl,
      fun _ _ hf => .inl hf, fun _ => rfl, fun h => absurd (hpres.symm.trans h) (by decide), .refl⟩
  | false =>
    rcases newPageMap_spec m with ⟨c, m₁, hnew, hc, -, hcend, hmem₁, hmgr₁, hcr3₁, hfreed₁⟩ |
      ⟨hnew, -⟩
    · rw [hnew]
      have hnc : n ≠ c := H.ne_of_free hc hn
      simp only [Bool.false_eq_true, if_false, if_true]
      refine .inr ⟨c, _, Function.update o c (some (T, i :: p)), rfl, ?_⟩
      simp only [Machine.setFlags, Machine.setEntry, setEntry_self, setEntry_setEntry]
      have hentry : m₁.mem n i = m.mem n i := by rw [hmem₁, setPage_of_ne _ hnc]
      rw [hentry]
      generalize he : ((((m.mem n i).setPointer c).setPresent true).setUser true).setWritable true = e
      have hepres : e.present = true := by rw [← he]; simp
      have heuser : e.user = true := by rw [← he]; simp
      have hewr : e.writable = true := by rw [← he]; simp
      have heptr : e.pointer = c := by
        rw [← he]
        simp [pointer_setPointer (hcend.trans_le hend)]
      have hehuge : e.hugePage = (m.mem n i).hugePage := by rw [← he]; simp
      refine ⟨.adopt hn (kid_of_absent hpres) hc ⟨hepres, htr, hp, fun _ => .inl hewr⟩ heptr heuser
        (fun h3 => ⟨hewr, hehuge.trans (H.table n T p i hn h3 htr).1, rfl⟩) (by rw [hmem₁]) hmgr₁
        hcr3₁ hfreed₁, Function.update_self .., ?_, ?_, ?_, ?_, fun j hj => ?_,
        fun f q hf => ?_, fun h => absurd (hpres.symm.trans h) (by decide), fun _ => ?_,
        fun f place hf => ?_, fun f q hf hq => ?_, fun f q hf _ => ?_⟩
      · simp only [setEntry_self, hepres]
      · simp only [setEntry_self, heuser]
      · simp only [setEntry_self, hewr]
      · simp only [setEntry_self, heptr]
      · simp only [hmem₁]
        rw [setEntry_of_index_ne _ hj, setPage_of_ne _ hnc]
      · by_cases hfc : f = c
        · rw [hfc, Function.update_self] at hf
          cases hf
          exact .inr rfl
        · rw [Function.update_of_ne hfc] at hf
          exact .inl hf
      · simp only [hmem₁]
        rw [setEntry_of_ne _ hnc.symm, setPage_self]
      · exact (Function.update_of_ne (H.ne_of_free hc hf) ..).trans hf
      · have hfn : f ≠ n := by
          rintro rfl
          rw [hn] at hf
          cases hf
          exact absurd hq (Nat.ne_of_lt (Nat.lt_succ_of_le hp))
        simp only [hmem₁]
        rw [setEntry_of_ne _ hfn, setPage_of_ne _ (H.ne_of_free hc hf)]
      · by_cases hfc : f = c
        · simp only [hfc, hmem₁]
          rw [setEntry_of_ne _ hnc.symm, setPage_self]
          exact .inr rfl
        · rw [Function.update_of_ne hfc] at hf
          exact .inl hf
    · rw [hnew]
      exact .inl rfl

/-- The addresses of the pages that are set up: they differ from the first one in the last table only. -/
def SamePages (addr : LinearAddress4Level) (num4kpages : Nat) (addr' : LinearAddress4Level) : Prop :=
  (∀ level, 2 ≤ level → addr'.part level = addr.part level) ∧
    addr.page.val ≤ addr'.page.val ∧ addr'.page.val < addr.page.val + num4kpages

/-- What setting up the pages has done: it built up the tree of `T` with these pages only, and on
success mapped them. Only the lack of a frame makes it fail. -/
structure SetsUp (M T level n num4kpages : Nat) (p : List (Fin 512)) (addr : LinearAddress4Level)
    (m : Machine) (o : Nat → Option Place) (r : WithError Nat × Machine) (o' : Nat → Option Place) :
    Prop where
  builds : Builds M T m o r.2 o'
  pages : ∀ f q, o' f = some (T, q) → q.length = 4 → o f = some (T, q) ∨
    ∃ addr', SamePages addr num4kpages addr' ∧ q = addr'.place level ++ p
  kept : Kept T m o r.2 o'
  error : r.1.error = .kSuccess ∨ r.1.error = .kNoEnoughMemory
  done : r.1.error = .kSuccess → r.1.value = 0 ∧ ∀ addr', SamePages addr num4kpages addr' →
    ∃ c, walk r.2.mem addr' level n = some ⟨c, true, true⟩

open Machine in
theorem setupLoop_zero (setupChild : Nat → LinearAddress4Level → Nat → Machine → WithError Nat × Machine)
    (writable : Bool) (turns : Nat) :
    setupLoop setupChild n level writable turns addr 0 m = (⟨0, .kSuccess⟩, m) := by
  cases turns with
  | zero | succ turns => rfl

/-- The loop over the entries of a page table. -/
theorem setupLeaves_spec
    (setupChild : Nat → LinearAddress4Level → Nat → Machine → WithError Nat × Machine) (turns : Nat)
    (hT : T ≠ M) {num4kpages : Nat}
    (H : WellOwned M (m.store o)) (hn : o n = some (T, p)) (hp : p.length = 3)
    (hpages : addr.page.val + num4kpages ≤ 512) (hturns : num4kpages ≤ turns)
    (hend : m.memoryManager.rangeEnd ≤ 2 ^ 40)
    (habsent : ∀ j : Fin 512, addr.page.val ≤ j.val → j.val < addr.page.val + num4kpages →
      (m.mem n j).present = false) :
    let r := Machine.setupLoop setupChild n 1 true turns addr num4kpages m
    ∃ o', Builds M T m o r.2 o' ∧ (∀ f q, o' f = some (T, q) → o f = some (T, q) ∨
        ∃ j : Fin 512, addr.page.val ≤ j.val ∧ j.val < addr.page.val + num4kpages ∧ q = j :: p) ∧
      Kept T m o r.2 o' ∧ (r.1.error = .kSuccess ∨ r.1.error = .kNoEnoughMemory) ∧
      (r.1.error = .kSuccess → r.1.value = 0 ∧
        (∀ j : Fin 512, j.val < addr.page.val → r.2.mem n j = m.mem n j) ∧
        ∀ j : Fin 512, addr.page.val ≤ j.val → j.val < addr.page.val + num4kpages →
          (r.2.mem n j).present = true ∧ (r.2.mem n j).user = true ∧
            (r.2.mem n j).writable = true) := by
  induction num4kpages generalizing addr m o turns with
  | zero =>
    rw [setupLoop_zero]
    exact ⟨o, .refl, fun _ _ hf => .inl hf, .refl, .inl rfl, fun _ =>
      ⟨rfl, fun _ _ => rfl, fun j hlo hhi => by omega⟩⟩
  | succ num ih =>
    obtain ⟨turns, rfl⟩ := Nat.exists_eq_succ_of_ne_zero (by omega : turns ≠ 0)
    have htr : Tracked p addr.page := by
      rintro rfl
      cases hp
    intro r
    have hr : r = Machine.setupLoop setupChild n 1 true (turns + 1) addr (num + 1) m := rfl
    rw [Machine.setupLoop, if_neg (Nat.succ_ne_zero num)] at hr
    simp only [show addr.part 1 = addr.page from rfl] at hr
    rcases linkEntry_spec H hn hp.le htr (fun _ => habsent _ (by omega) (by omega)) hend with
      hfail | ⟨c, m₁, o₁, hlink, hl⟩
    · rw [hfail] at hr
      refine ⟨o, ?_⟩
      rw [hr]
      exact ⟨.refl, fun _ _ hf => .inl hf, .refl, .inr rfl, fun h => by cases h⟩
    · rw [hlink] at hr
      simp only [if_true, Nat.add_sub_cancel] at hr
      change r = if addr.page = 511 then (⟨num, .kSuccess⟩, m₁.setFlags n addr.page) else
        Machine.setupLoop setupChild n 1 true turns (addr.nextEntry 1) num (m₁.setFlags n addr.page)
        at hr
      generalize m₁.setFlags n addr.page = m₂ at hl hr
      have H₂ := hl.builds.grows.wellOwned hT H
      have hn₂ := hl.builds.grows.owner hT H hn
      by_cases hlast : addr.page = 511
      · have hnum : num = 0 := by
          rw [hlast] at hpages
          have : (511 : Fin 512).val = 511 := rfl
          omega
        rw [if_pos hlast] at hr
        subst hnum
        refine ⟨o₁, ?_⟩
        rw [hr]
        refine ⟨hl.builds, fun f q hf => (hl.owners f q hf).imp_right fun hq =>
          ⟨addr.page, le_rfl, by omega, hq⟩, hl.kept, .inl rfl, fun _ =>
            ⟨rfl, fun j hj => hl.other j (by omega), fun j hlo hhi => ?_⟩⟩
        obtain rfl : j = addr.page := by omega
        exact ⟨hl.present, hl.user, hl.writable⟩
      · have hnext : (addr.nextEntry 1).page.val = addr.page.val + 1 := by
          have hval : addr.page.val ≠ 511 := fun h => hlast (Fin.ext h)
          simp only [LinearAddress4Level.nextEntry, LinearAddress4Level.setPart,
            LinearAddress4Level.part, Nat.sub_self, List.range_zero, List.foldr_nil]
          rw [Fin.val_add_eq_of_add_lt]
          · rfl
          · have : (1 : Fin 512).val = 1 := rfl
            omega
        rw [if_neg hlast] at hr
        obtain ⟨o', hb, hpages', hkept, herr, hdone⟩ := ih turns H₂ hn₂
          (show (addr.nextEntry 1).page.val + num ≤ 512 by omega) (by omega)
          (by rw [hl.builds.rangeEnd]; exact hend) (fun j hlo hhi => by
            rw [hl.other j (by omega)]
            exact habsent j (by omega) (by omega))
        rw [← hr] at hb hkept herr hdone
        refine ⟨o', hl.builds.trans hb, fun f q hf => ?_, hl.kept.trans hkept, herr, fun hok => ?_⟩
        · rcases hpages' f q hf with hf | ⟨j, hlo, hhi, hq⟩
          · exact (hl.owners f q hf).imp_right fun hq => ⟨addr.page, le_rfl, by omega, hq⟩
          · exact .inr ⟨j, by omega, by omega, hq⟩
        obtain ⟨hzero, hbelow, hin⟩ := hdone hok
        refine ⟨hzero, fun j hj => ?_, fun j hlo hhi => ?_⟩
        · rw [hbelow j (by omega), hl.other j (by omega)]
        · by_cases hj : j = addr.page
          · rw [hj, hbelow addr.page (by omega)]
            exact ⟨hl.present, hl.user, hl.writable⟩
          · exact hin j (by omega) (by omega)

theorem SamePages.page (addr : LinearAddress4Level) {num4kpages : Nat} {j : Fin 512}
    (hlo : addr.page.val ≤ j.val) (hhi : j.val < addr.page.val + num4kpages) :
    SamePages addr num4kpages { addr with page := j } := by
  refine ⟨fun level hlevel => ?_, hlo, hhi⟩
  rcases level with _ | _ | _ | _ | _ | level
  · rfl
  · omega
  all_goals rfl

/-- `SetupPageMap`, for pages that are not mapped below the table. -/
theorem setupPageMap_spec (hT : T ≠ M) (level : Nat) {num4kpages : Nat} (H : WellOwned M (m.store o))
    (hn : o n = some (T, p)) (hp : p.length + (level + 1) = 4)
    (ht : p = [] → 256 ≤ (addr.part 4).val) (hnum : num4kpages ≠ 0)
    (hpages : addr.page.val + num4kpages ≤ 512) (hend : m.memoryManager.rangeEnd ≤ 2 ^ 40)
    (habsent : ∀ addr', SamePages addr num4kpages addr' → walk m.mem addr' (level + 1) n = none) :
    ∃ o', SetsUp M T (level + 1) n num4kpages p addr m o
      (Machine.setupPageMap true (level + 1) n addr num4kpages m) o' := by
  induction level generalizing m o n p with
  | zero =>
    obtain ⟨o', hb, hpages', hkept, herr, hdone⟩ := setupLeaves_spec
      (Machine.setupPageMap true 0) 512 hT H hn (by omega) hpages (by omega) hend
      (fun j hlo hhi => by
        have hw := habsent _ (.page addr hlo hhi)
        rw [← Option.isNone_iff_eq_none, ← Option.not_isSome, isSome_walk_one] at hw
        exact Bool.not_inj hw)
    refine ⟨o', hb, fun f q hf _ => ?_, hkept, herr, fun hok => ?_⟩
    · refine (hpages' f q hf).imp_right fun hj => ?_
      obtain ⟨j, hlo, hhi, hq⟩ := hj
      exact ⟨_, .page addr hlo hhi, hq⟩
    obtain ⟨hzero, -, hin⟩ := hdone hok
    refine ⟨hzero, fun addr' hsame => ?_⟩
    obtain ⟨hpres, huser, hwritable⟩ := hin addr'.page hsame.2.1 hsame.2.2
    change ∃ c, walk (Machine.setupLoop (Machine.setupPageMap true 0) n 1 true 512 addr num4kpages
      m).2.mem addr' (0 + 1) n = some ⟨c, true, true⟩
    generalize (Machine.setupLoop (Machine.setupPageMap true 0) n 1 true 512 addr num4kpages m).2 = m'
      at hpres huser hwritable ⊢
    refine ⟨(m'.mem n addr'.page).pointer, ?_⟩
    rw [walk_succ, show addr'.part (0 + 1) = addr'.page from rfl, if_pos hpres, if_neg (by omega),
      huser, hwritable]
    rfl
  | succ level ih =>
    have htr : Tracked p (addr.part (level + 2)) := .of_level hp ht
    have hp3 : p.length < 3 := by omega
    generalize hr : Machine.setupPageMap true (level + 1 + 1) n addr num4kpages m = r
    have hloop : r = Machine.setupLoop (Machine.setupPageMap true (level + 1)) n (level + 2) true
      (511 + 1) addr num4kpages m := hr.symm
    rw [Machine.setupLoop, if_neg hnum] at hloop
    rcases linkEntry_spec H hn hp3.le htr (fun h => absurd h hp3.ne) hend with
      hfail | ⟨c, m₁, o₁, hlink, hl⟩
    · simp only [hfail] at hloop
      refine ⟨o, ?_⟩
      rw [hloop]
      exact ⟨.refl, fun _ _ hf _ => .inl hf, .refl, .inr rfl, fun h => by cases h⟩
    · have hfold (i : Fin 512) : (m₁.setEntry n i ((m₁.mem n i).setUser true)).setEntry n i
          (((m₁.setEntry n i ((m₁.mem n i).setUser true)).mem n i).setWritable true) =
            m₁.setFlags n i := rfl
      simp only [hlink, if_true, show ¬ level + 2 = 1 by omega, if_false, hfold] at hloop
      generalize m₁.setFlags n (addr.part (level + 2)) = m₂ at hl hloop
      have H₂ := hl.builds.grows.wellOwned hT H
      -- below the linked table the pages are not mapped either
      have hbelow : ∀ addr', SamePages addr num4kpages addr' → walk m₂.mem addr' (level + 1) c = none := by
        intro addr' hsame
        cases hpres : (m.mem n (addr.part (level + 2))).present with
        | true =>
          have hw := habsent addr' hsame
          rw [H.walk_succ hn hp, hsame.1 (level + 1 + 1) (by omega), if_pos hpres,
            Option.map_eq_none_iff] at hw
          have hptr := hl.pointer
          rw [hl.found hpres] at hptr ⊢
          rw [← hptr]
          exact hw
        | false => rw [walk_succ, hl.filled hpres, present_zero, if_neg Bool.false_ne_true]
      obtain ⟨o', hs⟩ := ih H₂ hl.child (by simp only [List.length_cons]; omega)
        (fun h => by cases h) (by rw [hl.builds.rangeEnd]; exact hend) hbelow
      · have hpages' (f : Nat) (q : List (Fin 512)) (hf : o' f = some (T, q)) (hq : q.length = 4) :
            o f = some (T, q) ∨ ∃ addr', SamePages addr num4kpages addr' ∧
              q = addr'.place (level + 2) ++ p := by
          rcases hs.pages f q hf hq with hf | ⟨addr', hsame, hq'⟩
          · refine (hl.owners f q hf).imp_right fun hq' => ?_
            rw [hq', List.length_cons] at hq
            omega
          · refine .inr ⟨addr', hsame, ?_⟩
            rw [hq', ← hsame.1 (level + 2) (by omega), ← addr'.place_succ_append (level + 1) p]
        generalize Machine.setupPageMap true (level + 1) c addr num4kpages m₂ = rest at hs hloop
        obtain ⟨⟨remain, err⟩, m₃⟩ := rest
        have hb : Builds M T m o m₃ o' := hl.builds.trans hs.builds
        have hkept : Kept T m o m₃ o' := hl.kept.trans hs.kept
        refine ⟨o', ?_⟩
        by_cases hok : err = .kSuccess
        · obtain ⟨hzero, hmapped⟩ := hs.done hok
          have hr : r = (⟨0, .kSuccess⟩, m₃) := by
            simp only at hzero
            rw [hloop, hok, hzero, if_pos rfl, setupLoop_zero, ite_self]
          rw [hr]
          refine ⟨hb, hpages', hkept, .inl rfl, fun _ => ⟨rfl, fun addr' hsame => ?_⟩⟩
          obtain ⟨f, hf⟩ := hmapped addr' hsame
          have hentry : m₃.mem n (addr.part (level + 2)) = m₂.mem n (addr.part (level + 2)) :=
            hs.builds.grows.entry hT H₂ (hl.builds.grows.owner hT H hn) hp3 fun _ => hl.present
          refine ⟨f, ?_⟩
          rw [(hb.grows.wellOwned hT H).walk_succ (hb.grows.owner hT H hn) hp,
            hsame.1 (level + 1 + 1) (by omega), show level + 1 + 1 = level + 2 from rfl]
          simp only at hf
          simp only [hentry, hl.present, hl.user, hl.writable, hl.pointer, if_true, hf,
            Option.map_some, Bool.true_and]
        · rw [if_neg hok] at hloop
          rw [hloop]
          exact ⟨hb, hpages', hkept, hs.error, fun h => absurd h hok⟩

/-- `SetupPageMaps` for pages of the upper half that are not mapped. -/
theorem setupPageMaps_spec (hT : T ≠ M) {num4kpages : Nat} (H : WellOwned M (m.store o))
    (hroot : o T = some (T, [])) (hcr3 : m.cr3 = T) (haddr : 256 ≤ (addr.part 4).val)
    (hnum : num4kpages ≠ 0) (hpages : addr.page.val + num4kpages ≤ 512)
    (hend : m.memoryManager.rangeEnd ≤ 2 ^ 40)
    (habsent : ∀ addr', SamePages addr num4kpages addr' → walk m.mem addr' 4 T = none) :
    ∃ o', Builds M T m o (m.setupPageMaps addr num4kpages true).2 o' ∧
      (∀ f q, o' f = some (T, q) → q.length = 4 → o f = some (T, q) ∨
        ∃ addr', SamePages addr num4kpages addr' ∧ q = addr'.place 4) ∧
      Kept T m o (m.setupPageMaps addr num4kpages true).2 o' ∧
      ((m.setupPageMaps addr num4kpages true).1 = .kSuccess ∨
        (m.setupPageMaps addr num4kpages true).1 = .kNoEnoughMemory) ∧
      ((m.setupPageMaps addr num4kpages true).1 = .kSuccess → ∀ addr', SamePages addr num4kpages addr' →
        ∃ c, walk (m.setupPageMaps addr num4kpages true).2.mem addr' 4 T = some ⟨c, true, true⟩) := by
  obtain ⟨o', hs⟩ := setupPageMap_spec hT 3 H hroot rfl (fun _ => haddr) hnum hpages hend habsent
  rw [Machine.setupPageMaps, hcr3]
  refine ⟨o', hs.builds, fun f q hf hq => ?_, hs.kept, hs.error, fun hok => (hs.done hok).2⟩
  simpa only [Nat.reduceAdd, List.append_nil] using hs.pages f q hf hq

end MikanOS
