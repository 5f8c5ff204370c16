import MikanOS.Paging.Ownership

/-! # Address spaces

What the steps on the tree of `T` leave alone, and what the MMU finds on its way through a tree. -/

namespace MikanOS

open OwnedForest PageMapEntry Memory Relation

/-- The place of an address below a table of the given level. -/
def LinearAddress4Level.place (addr : LinearAddress4Level) : Nat → List (Fin 512)
  | 0 => []
  | level + 1 => addr.place level ++ [addr.part (level + 1)]

theorem LinearAddress4Level.place_succ_append (addr : LinearAddress4Level) (level : Nat)
    (p : List (Fin 512)) :
    addr.place (level + 1) ++ p = addr.place level ++ addr.part (level + 1) :: p := by
  simp [LinearAddress4Level.place]

theorem Tracked.of_level {addr : LinearAddress4Level} (hp : p.length + level = 4)
    (ht : p = [] → 256 ≤ (addr.part 4).val) : Tracked p (addr.part level) := by
  intro h0
  rw [show level = 4 by simpa [h0] using hp]
  exact ht h0

namespace Store

variable {M T n c f r : Nat} {p : List (Fin 512)} {i : Fin 512} {s s' s'' : Store}
  {addr : LinearAddress4Level} {level : Nat}

/-- A frame that is in use and not part of the tree of `T`. -/
def Foreign (T : Nat) (s : Store) (f : Nat) : Prop :=
  s.allocated f = true ∧ ∀ p, s.owner f ≠ some (T, p)

/-- The foreign frames stay foreign, with their contents and their owners. -/
def Frame (T : Nat) (s s' : Store) : Prop :=
  ∀ f, (Foreign T s' f ↔ Foreign T s f) ∧
    (Foreign T s f → s'.mem f = s.mem f ∧ s'.owner f = s.owner f)

namespace Frame

theorem refl : Frame T s s := fun _ => ⟨Iff.rfl, fun _ => ⟨rfl, rfl⟩⟩

theorem trans (h : Frame T s s') (h' : Frame T s' s'') : Frame T s s'' := by
  intro f
  refine ⟨(h' f).1.trans (h f).1, fun hf => ?_⟩
  obtain ⟨hmem, howner⟩ := (h f).2 hf
  obtain ⟨hmem', howner'⟩ := (h' f).2 ((h f).1.mpr hf)
  exact ⟨hmem'.trans hmem, howner'.trans howner⟩

end Frame

theorem WellOwned.foreign (H : WellOwned M s) (hf : s.owner f = some (r, p)) (hr : r ≠ T) :
    Foreign T s f := by
  refine ⟨H.allocated f (by rw [hf]; exact Option.some_ne_none _), fun q hq => ?_⟩
  rw [hf] at hq
  cases hq
  exact hr rfl

/-- A tree other than that of `T` stays as it is. -/
theorem Frame.other (h : Frame T s s') (H : WellOwned M s) (hf : s.owner f = some (r, p))
    (hr : r ≠ T) : s'.mem f = s.mem f ∧ s'.owner f = some (r, p) := by
  obtain ⟨hmem, howner⟩ := (h f).2 (H.foreign hf hr)
  exact ⟨hmem, howner.trans hf⟩

theorem Grow.frame (h : Grow M T s s') : Frame T s s' := by
  intro f
  cases h with
  | @adopt n c p i e page hn hslot hc =>
    by_cases hfc : f = c
    · subst hfc
      have hnot : ¬ Foreign T s f := fun h => by
        rw [Foreign, hc] at h
        exact absurd h.1 Bool.false_ne_true
      exact ⟨⟨fun h => absurd (Function.update_self ..) (h.2 (i :: p)), fun h => absurd h hnot⟩,
        fun h => absurd h hnot⟩
    · have hforeign : Foreign T s f → f ≠ n := by
        rintro h rfl
        exact h.2 p hn
      simp only [Foreign, Function.update_of_ne hfc, true_and, and_true]
      intro h
      rw [setEntry_of_ne _ (hforeign h), setPage_of_ne _ hfc]
  | share hn =>
    refine ⟨Iff.rfl, fun h => ⟨setEntry_of_ne _ ?_ .., rfl⟩⟩
    rintro rfl
    exact h.2 _ hn
  | write page hf =>
    refine ⟨Iff.rfl, fun h => ⟨setPage_of_ne _ ?_ _, rfl⟩⟩
    rintro rfl
    exact h.2 _ hf

theorem Shrink.frame (H : WellOwned M s) (h : Shrink M T s s') : Frame T s s' := by
  intro f
  cases h with
  | unshare hn =>
    refine ⟨Iff.rfl, fun h => ⟨setEntry_of_ne _ ?_ .., rfl⟩⟩
    rintro rfl
    exact h.2 _ hn
  | @release n c p i hn hslot =>
    have hc := H.forest.child n T p i c hn hslot
    by_cases hfc : f = c
    · subst hfc
      refine ⟨⟨fun h => ?_, fun h => absurd hc (h.2 _)⟩, fun h => absurd hc (h.2 _)⟩
      have := h.1
      simp only [Function.update_self] at this
      cases this
    · simp only [Foreign, Function.update_of_ne hfc, true_and, and_true]
      refine fun h => setEntry_of_ne _ ?_ ..
      rintro rfl
      exact h.2 _ hn

theorem Frame.addRoot (hc : s.allocated T = false) (page : Fin 512 → PageMapEntry) :
    Frame T s {
      mem := s.mem.setPage T page
      allocated := Function.update s.allocated T true
      owner := Function.update s.owner T (some (T, []))
      freed := s.freed } := by
  intro f
  by_cases hf : f = T
  · subst hf
    have hnot : ¬ Foreign f s f := fun h => by
      rw [Foreign, hc] at h
      exact absurd h.1 Bool.false_ne_true
    exact ⟨⟨fun h => absurd (Function.update_self ..) (h.2 []), fun h => absurd h hnot⟩,
      fun h => absurd h hnot⟩
  · simp only [Foreign, Function.update_of_ne hf, true_and, and_true]
    exact fun _ => setPage_of_ne _ hf _

theorem Frame.removeRoot (hroot : s.owner T = some (T, [])) :
    Frame T s { s with
      allocated := Function.update s.allocated T false
      owner := Function.update s.owner T none
      freed := T :: s.freed } := by
  intro f
  by_cases hf : f = T
  · subst hf
    refine ⟨⟨fun h => ?_, fun h => absurd hroot (h.2 _)⟩, fun h => absurd hroot (h.2 _)⟩
    have := h.1
    simp only [Function.update_self] at this
    cases this
  · simp only [Foreign, Function.update_of_ne hf, true_and, and_true]
    exact fun _ => trivial

/-! ## Runs of steps -/

/-- The tree of `T` was built up from `s` to `s'`. -/
abbrev Grows (M T : Nat) : Store → Store → Prop := ReflTransGen (Grow M T)

abbrev Shrinks (M T : Nat) : Store → Store → Prop := ReflTransGen (Shrink M T)

theorem Grows.wellOwned (hT : T ≠ M) (h : Grows M T s s') (H : WellOwned M s) :
    WellOwned M s' := by
  induction h with
  | refl => exact H
  | tail _ h ih => exact h.wellOwned hT ih

theorem Shrinks.wellOwned (hT : T ≠ M) (h : Shrinks M T s s') (H : WellOwned M s) :
    WellOwned M s' := by
  induction h with
  | refl => exact H
  | tail _ h ih => exact h.wellOwned hT ih

theorem Grows.frame (h : Grows M T s s') : Frame T s s' := by
  induction h with
  | refl => exact .refl
  | tail _ h ih => exact ih.trans h.frame

theorem Shrinks.frame (hT : T ≠ M) (h : Shrinks M T s s') (H : WellOwned M s) :
    Frame T s s' := by
  induction h with
  | refl => exact .refl
  | tail h' h ih => exact ih.trans (h.frame (Shrinks.wellOwned hT h' H))

/-- While a tree is built up, nothing is freed. -/
theorem Grows.freed (h : Grows M T s s') : s'.freed = s.freed := by
  induction h with
  | refl => rfl
  | tail _ h ih => cases h <;> exact ih

theorem Grows.allocated (h : Grows M T s s') (hf : s.allocated f = true) :
    s'.allocated f = true := by
  induction h with
  | refl => exact hf
  | tail _ h ih =>
    cases h with
    | @adopt n c =>
      by_cases hfc : f = c
      · subst hfc
        exact Function.update_self ..
      · exact (Function.update_of_ne hfc ..).trans ih
    | share => exact ih
    | write => exact ih

/-- While a tree is taken down, its frames are freed once each. -/
theorem Shrinks.freed (hT : T ≠ M) (h : Shrinks M T s s') (H : WellOwned M s) :
    ∃ l, s'.freed = l ++ s.freed ∧ l.Nodup ∧
      (∀ f ∈ l, s'.owner f = none ∧ ∃ p, s.owner f = some (T, p)) ∧
      ∀ f place, s'.owner f = some place → s.owner f = some place := by
  induction h with
  | refl => exact ⟨[], rfl, .nil, by simp, fun _ _ hf => hf⟩
  | tail h' h ih =>
    obtain ⟨l, hl, hnodup, hfreed, hback⟩ := ih
    cases h with
    | unshare => exact ⟨l, hl, hnodup, hfreed, hback⟩
    | @release n c p i hn hslot =>
      have hc := (Shrinks.wellOwned hT h' H).forest.child n T p i c hn hslot
      refine ⟨c :: l, congrArg (c :: ·) hl, .cons (fun hmem => ?_) hnodup, fun f hf => ?_,
        fun f place hf => ?_⟩
      · rw [(hfreed c hmem).1] at hc
        cases hc
      · rcases List.mem_cons.mp hf with rfl | hf
        · exact ⟨Function.update_self .., _, hback _ _ hc⟩
        · obtain ⟨hnone, hsome⟩ := hfreed f hf
          refine ⟨?_, hsome⟩
          by_cases hfc : f = c
          · rw [hfc]
            exact Function.update_self ..
          · exact (Function.update_of_ne hfc ..).trans hnone
      · by_cases hfc : f = c
        · rw [hfc] at hf
          simp only [Function.update_self] at hf
          cases hf
        · simp only [Function.update_of_ne hfc] at hf
          exact hback f place hf

/-! ## What stays while a tree is built up -/

theorem Grow.owner (H : WellOwned M s) (h : Grow M T s s') (hf : s.owner f = some place) :
    s'.owner f = some place := by
  cases h with
  | adopt hn hslot hc =>
    exact (Function.update_of_ne (H.ne_of_free hc hf) ..).trans hf
  | share => exact hf
  | write => exact hf

/-- The entries of a table other than free slots and shared leaves. -/
theorem Grow.entry (H : WellOwned M s) (h : Grow M T s s') (hn : s.owner n = some (r, p))
    (hp : p.length < 3) (hi : Tracked p i → (s.mem n i).present = true) :
    s'.mem n i = s.mem n i := by
  have hslot (hT : r = T) (ht : Tracked p i) : s.kid M n i ≠ none := by
    rw [kid_of_owner hn, if_pos ⟨hi ht, ht, by simp only; omega, fun h3 => by
      simp only at h3; omega⟩]
    exact Option.some_ne_none _
  cases h with
  | @adopt n' c p' i' e page hn' hslot' hc howns =>
    have hnc : n ≠ c := H.ne_of_free hc hn
    simp only [setEntry_apply, setPage_of_ne _ hnc]
    refine if_neg ?_
    rintro ⟨rfl, rfl⟩
    rw [hn] at hn'
    cases hn'
    exact hslot rfl howns.2.1 hslot'
  | share hn' hp' =>
    refine congrFun (setEntry_of_ne _ ?_ ..) i
    rintro rfl
    rw [hn] at hn'
    cases hn'
    omega
  | write page hf hp' =>
    refine congrFun (setPage_of_ne _ ?_ _) i
    rintro rfl
    rw [hn] at hf
    cases hf
    omega

theorem Grow.leaf (H : WellOwned M s) (h : Grow M T s s') (hn : s.owner n = some (r, p))
    (hp : p.length = 3) (hi : (s.mem n i).present = true) : (s'.mem n i).present = true := by
  cases h with
  | @adopt n' c p' i' e page hn' hslot' hc howns =>
    have hnc : n ≠ c := H.ne_of_free hc hn
    simp only [setEntry_apply, setPage_of_ne _ hnc]
    split
    · exact howns.1
    · exact hi
  | share hn' hp' hslot hM hpresent =>
    simp only [setEntry_apply]
    split
    · exact hpresent
    · exact hi
  | write page hf hp' =>
    simp only
    rw [setPage_of_ne]
    · exact hi
    · rintro rfl
      rw [hn] at hf
      cases hf
      omega

theorem Grows.owner (hT : T ≠ M) (H : WellOwned M s) (h : Grows M T s s')
    (hf : s.owner f = some place) : s'.owner f = some place := by
  induction h with
  | refl => exact hf
  | tail h' h ih => exact h.owner (Grows.wellOwned hT h' H) ih

theorem Grows.entry (hT : T ≠ M) (H : WellOwned M s) (h : Grows M T s s')
    (hn : s.owner n = some (r, p)) (hp : p.length < 3)
    (hi : Tracked p i → (s.mem n i).present = true) : s'.mem n i = s.mem n i := by
  induction h with
  | refl => rfl
  | tail h' h ih =>
    rw [← ih]
    exact h.entry (Grows.wellOwned hT h' H) (Grows.owner hT H h' hn) hp (ih ▸ hi)

/-! ## The walk of the MMU -/

theorem isSome_walk_one (mem : Memory) (addr : LinearAddress4Level) (n : Nat) :
    (walk mem addr 1 n).isSome = (mem n (addr.part 1)).present := by
  rw [walk]
  cases (mem n (addr.part 1)).present <;> simp [walk]

/-- In a tree there are no huge pages. -/
theorem WellOwned.walk_succ (H : WellOwned M s) (hn : s.owner n = some (r, p))
    (hp : p.length + (level + 1) = 4) :
    walk s.mem addr (level + 1) n =
      if (s.mem n (addr.part (level + 1))).present then
        (walk s.mem addr level (s.mem n (addr.part (level + 1))).pointer).map fun t =>
          ⟨t.frame, (s.mem n (addr.part (level + 1))).user && t.user,
            (s.mem n (addr.part (level + 1))).writable && t.writable⟩
      else none := by
  have hhuge (hl : level = 1 ∨ level = 2) :
      (s.mem n (addr.part (level + 1))).hugePage = false := by
    refine (H.table n r p _ hn (by omega) fun h0 => ?_).1
    simp only [h0, List.length_nil] at hp
    omega
  rw [walk]
  congr 1
  refine if_neg ?_
  rintro ⟨h, hl⟩
  rw [hhuge hl] at h
  cases h

theorem WellOwned.isSome_walk_succ (H : WellOwned M s) (hn : s.owner n = some (r, p))
    (hp : p.length + (level + 1) = 4) :
    (walk s.mem addr (level + 1) n).isSome ↔ (s.mem n (addr.part (level + 1))).present = true ∧
      (walk s.mem addr level (s.mem n (addr.part (level + 1))).pointer).isSome := by
  rw [H.walk_succ hn hp]
  split <;> simp [*]

/-- The page of an address is found. -/
theorem WellOwned.isSome_walk_of_owner (H : WellOwned M s) (hn : s.owner n = some (r, p))
    (hp : p.length + level = 4) (ht : p = [] → 256 ≤ (addr.part 4).val)
    (hf : s.owner f = some (r, addr.place level ++ p)) : (walk s.mem addr level n).isSome := by
  induction level generalizing n p with
  | zero => rfl
  | succ level ih =>
    rw [addr.place_succ_append] at hf
    obtain ⟨c, hc⟩ := H.forest.ancestor hf
    obtain ⟨n', hn', hkid⟩ := H.forest.parent c r _ p hc
    obtain rfl := H.forest.unique hn hn'
    rw [kid_of_owner hn] at hkid
    split at hkid
    · rename_i howns
      rw [H.isSome_walk_succ hn hp, Option.some.inj hkid]
      exact ⟨howns.1, ih hc (by simp only [List.length_cons]; omega) (fun h => by cases h) hf⟩
    · cases hkid

/-- A walk down a tree ends at a page of the tree, or at the page of the cached tree that it shares
at that place, and no table on the way forbids anything. -/
theorem WellOwned.walk_owner (H : WellOwned M s) (hn : s.owner n = some (r, p))
    (hp : p.length + level = 4) (ht : p = [] → 256 ≤ (addr.part 4).val)
    (hw : walk s.mem addr level n = some t) :
    t.user = true ∧ s.owner t.frame = some (if t.writable then r else M, addr.place level ++ p) := by
  induction level generalizing n p t with
  | zero =>
    cases hw
    refine ⟨rfl, ?_⟩
    simpa only [LinearAddress4Level.place, List.nil_append, if_true] using hn
  | succ level ih =>
    rw [H.walk_succ hn hp] at hw
    split at hw
    · rename_i hpres
      obtain ⟨t', hw', rfl⟩ := Option.map_eq_some_iff.mp hw
      rw [addr.place_succ_append]
      by_cases hlevel : level = 0
      · subst hlevel
        rw [walk, Option.some.injEq] at hw'
        subst hw'
        obtain ⟨hu, hshared⟩ := H.leaf n r p _ hn (by omega) hpres
        refine ⟨by simp [hu], ?_⟩
        simp only [Bool.and_true]
        split
        · exact H.page hn (by omega) hpres (.inl (by assumption))
        · exact hshared (by simp_all)
      · have htr : Tracked p (addr.part (level + 1)) := .of_level hp ht
        obtain ⟨-, hflags⟩ := H.table n r p _ hn (by omega) htr
        obtain ⟨hu, hwr⟩ := hflags hpres
        obtain ⟨ihu, iho⟩ := ih (H.child hn (by omega) htr hpres)
          (by simp only [List.length_cons]; omega) (fun h => by cases h) hw'
        simp only [hu, hwr, Bool.true_and]
        exact ⟨ihu, iho⟩
    · cases hw

/-- A walk reads the tables of its tree only. -/
theorem WellOwned.walk_congr (H : WellOwned M s) {mem' : Memory}
    (hmem : ∀ f q, s.owner f = some (r, q) → q.length ≤ 3 → mem' f = s.mem f)
    (hn : s.owner n = some (r, p)) (hp : p.length + level = 4)
    (ht : p = [] → 256 ≤ (addr.part 4).val) :
    walk mem' addr level n = walk s.mem addr level n := by
  induction level generalizing n p with
  | zero => rfl
  | succ level ih =>
    rw [walk, walk, hmem n p hn (by omega)]
    by_cases hpres : (s.mem n (addr.part (level + 1))).present = true
    · by_cases hlevel : level = 0
      · subst hlevel
        rfl
      · have htr : Tracked p (addr.part (level + 1)) := .of_level hp ht
        rw [ih (H.child hn (by omega) htr hpres) (by simp only [List.length_cons]; omega)
          fun h => by cases h]
    · simp [hpres]

/-- What is mapped stays mapped while the tree is built up. -/
theorem Grow.isSome_walk (hT : T ≠ M) (H : WellOwned M s) (h : Grow M T s s')
    (hn : s.owner n = some (r, p)) (hp : p.length + level = 4)
    (ht : p = [] → 256 ≤ (addr.part 4).val) (hw : (walk s.mem addr level n).isSome) :
    (walk s'.mem addr level n).isSome := by
  induction level generalizing n p with
  | zero => rfl
  | succ level ih =>
    rw [H.walk_succ hn hp] at hw
    rw [(h.wellOwned hT H).walk_succ (h.owner H hn) hp]
    split at hw
    · rename_i hpres
      rw [Option.isSome_map] at hw
      by_cases hlevel : level = 0
      · subst hlevel
        rw [if_pos (h.leaf H hn (by omega) hpres)]
        rfl
      · have htr : Tracked p (addr.part (level + 1)) := .of_level hp ht
        rw [h.entry H hn (by omega) fun _ => hpres, if_pos hpres, Option.isSome_map]
        exact ih (H.child hn (by omega) htr hpres) (by simp only [List.length_cons]; omega)
          (fun h => by cases h) hw
    · cases hw

theorem Grows.isSome_walk (hT : T ≠ M) (H : WellOwned M s) (h : Grows M T s s')
    (hn : s.owner n = some (r, p)) (hp : p.length + level = 4)
    (ht : p = [] → 256 ≤ (addr.part 4).val) (hw : (walk s.mem addr level n).isSome) :
    (walk s'.mem addr level n).isSome := by
  induction h with
  | refl => exact hw
  | tail h' h ih =>
    exact h.isSome_walk hT (Grows.wellOwned hT h' H) (Grows.owner hT H h' hn) hp ht ih

end Store

end MikanOS
