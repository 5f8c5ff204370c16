import MikanOS.Fat.Contents
import MikanOS.Paging.KernelStores
import MikanOS.Paging.Regions

/-! # Files in the address space

An application maps files, asks for pages, stores to its memory and faults, in any order. A page of a
mapping is filled from the file when it is first touched. -/

namespace MikanOS

open PageMapEntry LinearAddress4Level Memory Store Fat Bytes

variable {M T c : Nat} {m m' m₀ : Machine} {o o' : Nat → Option Place} {addr addr' : LinearAddress4Level}
  {task : PagingTask}

/-! ## The files of a task -/

/-- The bytes that `Load` puts into the buffer. -/
def Fat.FileDescriptor.loadBytes (vol : Volume) (fd : FileDescriptor) (len offset : Nat) : List UInt8 :=
  match fd.load vol (fun _ => 0) len offset with
  | some (n, buf) => slice buf 0 n
  | none => []

theorem Fat.FileDescriptor.length_loadBytes (vol : Volume) (fd : FileDescriptor) (len offset : Nat) :
    (fd.loadBytes vol len offset).length ≤ len := by
  rw [loadBytes]
  split
  · rename_i h
    rw [length_slice]
    exact load_le h
  · exact Nat.zero_le _

/-- A file descriptor of a task. A terminal or a pipe has no size and nothing to load. -/
inductive OpenFile where
  | fat (fd : FileDescriptor)
  | stream

def OpenFile.mapped (vol : Volume) : OpenFile → MappedFile
  | .fat fd => {
    load := fd.loadBytes vol
    length_load := fd.length_loadBytes vol
    size := (vol.entry fd.fatEntry).fileSize }
  | .stream => {
    load _ _ := []
    length_load _ _ := Nat.zero_le _
    size := 0 }

/-- The file of the descriptor has these bytes, on a volume that is in order. -/
def OpenFile.Has (vol : Volume) (bytes : List UInt8) : OpenFile → Prop
  | .fat fd => ∃ clusters cs, vol.WellFormed clusters ∧ FileDescriptor.FileOf vol clusters fd.fatEntry cs ∧
      bytes = slice (contents vol cs) 0 (vol.entry fd.fatEntry).fileSize
  | .stream => bytes = []

variable {vol : Volume} {bytes : List UInt8} {file : OpenFile}

theorem OpenFile.Has.size (h : file.Has vol bytes) : (file.mapped vol).size = bytes.length := by
  cases file with
  | stream =>
    rw [h]
    rfl
  | fat fd =>
    obtain ⟨clusters, cs, -, -, rfl⟩ := h
    rw [length_slice]
    rfl

theorem OpenFile.Has.length_lt (h : file.Has vol bytes) : bytes.length < 2 ^ 32 := by
  cases file with
  | stream =>
    rw [h]
    decide
  | fat fd =>
    obtain ⟨clusters, cs, -, hf, rfl⟩ := h
    rw [length_slice]
    exact hf.size_lt

/-- What `Load` gives for a place in the file. -/
theorem OpenFile.Has.load (h : file.Has vol bytes) {offset : Nat} (hoffset : offset < bytes.length)
    (len : Nat) : (file.mapped vol).load len offset = (bytes.drop offset).take len := by
  cases file with
  | stream =>
    rw [h] at hoffset
    exact absurd hoffset (Nat.not_lt_zero _)
  | fat fd =>
    obtain ⟨clusters, cs, hv, hf, rfl⟩ := h
    rw [length_slice] at hoffset
    obtain ⟨buf', hload, hbytes⟩ := FileDescriptor.load_spec hv hf hoffset.le (fun _ => 0) len
    have hsize : (vol.entry fd.fatEntry).fileSize =
        offset + ((vol.entry fd.fatEntry).fileSize - offset) := by omega
    change fd.loadBytes vol len offset = _
    rw [FileDescriptor.loadBytes, hload]
    simp only [hbytes]
    rw [hsize, slice_add, List.drop_append_of_le_length (by rw [length_slice]),
      List.drop_eq_nil_of_le (by rw [length_slice]), List.nil_append, Nat.zero_add, take_slice,
      Nat.add_sub_cancel_left]

/-! ## The bytes of a page -/

theorem Memory.byte_setBytes (mem : Memory) (f : Nat) {offset : Nat} {bytes : List UInt8}
    (h : offset + bytes.length ≤ 4096) (k : Fin 4096) :
    (mem.setBytes f offset bytes).byte f k =
      if offset ≤ k.val ∧ k.val < offset + bytes.length then bytes.getD (k - offset) 0
      else mem.byte f k := by
  induction bytes generalizing mem offset with
  | nil => rw [setBytes, if_neg (by simp only [List.length_nil]; omega)]
  | cons b bytes ih =>
    simp only [List.length_cons] at h ⊢
    have hval : (Fin.ofNat 4096 offset).val = offset := Nat.mod_eq_of_lt (by omega)
    rw [setBytes, ih _ (by omega), byte_setByteAt]
    by_cases hk : k.val = offset
    · have hkf : k = Fin.ofNat 4096 offset := Fin.ext (hk.trans hval.symm)
      rw [if_neg (by omega), if_pos ⟨rfl, hkf⟩, if_pos (by omega), hk, Nat.sub_self,
        List.getD_cons_zero]
    · have hkf : k ≠ Fin.ofNat 4096 offset := fun hkf => hk ((congrArg Fin.val hkf).trans hval)
      have hne : ¬(f = f ∧ k = Fin.ofNat 4096 offset) := fun h => hkf h.2
      rw [if_neg hne]
      by_cases hin : offset + 1 ≤ k.val ∧ k.val < offset + 1 + bytes.length
      · rw [if_pos hin, if_pos (by omega), show k.val - offset = k.val - (offset + 1) + 1 by omega,
          List.getD_cons_succ]
      · rw [if_neg hin, if_neg (by omega)]

/-! ## Pages of one's own -/

/-- The address space `T` of an application over the cached tree `M`, which has been mapped since `m₀` where
it was then. -/
structure Space (M T : Nat) (m₀ m : Machine) (o : Nat → Option Place) : Prop where
  ne : T ≠ M
  wellOwned : WellOwned M (m.store o)
  root : o T = some (T, [])
  cached : o M = some (M, [])
  cr3 : m.cr3 = T
  rangeEnd : m.memoryManager.rangeEnd ≤ 2 ^ 40
  image : ∀ addr : LinearAddress4Level, 256 ≤ (addr.part 4).val →
    (walk m.mem addr 4 M).isSome = (walk m₀.mem addr 4 M).isSome

namespace Space

variable (S : Space M T m₀ m o)

include S

theorem build (hb : Builds M T m o m' o') : Space M T m₀ m' o' where
  ne := S.ne
  wellOwned := hb.grows.wellOwned S.ne S.wellOwned
  root := hb.grows.owner S.ne S.wellOwned S.root
  cached := hb.grows.owner S.ne S.wellOwned S.cached
  cr3 := hb.cr3.trans S.cr3
  rangeEnd := hb.rangeEnd ▸ S.rangeEnd
  image addr haddr := by
    rw [← S.image addr haddr, S.wellOwned.walk_congr (fun f q hf _ => ?_) S.cached rfl fun _ => haddr]
    exact (hb.grows.frame.other S.wellOwned hf S.ne.symm).1

/-- Where the image is not mapped, a page is one's own. -/
theorem walk_own {t : Translation} (haddr : 256 ≤ (addr.part 4).val)
    (hfree : walk m₀.mem addr 4 M = none) (hw : walk m.mem addr 4 T = some t) :
    t = ⟨t.frame, true, true⟩ ∧ o t.frame = some (T, addr.place 4) := by
  obtain ⟨huser, howner⟩ := S.wellOwned.walk_owner S.root rfl (fun _ => haddr) hw
  rw [List.append_nil] at howner
  obtain ⟨frame, user, writable⟩ := t
  cases writable with
  | true =>
    simp only at huser
    rw [huser]
    exact ⟨rfl, howner⟩
  | false =>
    have hsome : (walk m.mem addr 4 M).isSome := S.wellOwned.isSome_walk_of_owner S.cached rfl
      (fun _ => haddr) (howner.trans (by simp))
    rw [S.image addr haddr, hfree] at hsome
    cases hsome

theorem walk_of_owner {f : Nat} (haddr : 256 ≤ (addr.part 4).val)
    (hfree : walk m₀.mem addr 4 M = none) (hf : o f = some (T, addr.place 4)) :
    walk m.mem addr 4 T = some ⟨f, true, true⟩ := by
  have hsome := S.wellOwned.isSome_walk_of_owner S.root rfl (fun _ => haddr)
    (hf.trans (congrArg (fun q => some (T, q)) (List.append_nil (addr.place 4)).symm))
  obtain ⟨t, hw⟩ := Option.isSome_iff_exists.mp hsome
  obtain ⟨heq, howner⟩ := S.walk_own haddr hfree hw
  rw [hw, heq, S.wellOwned.forest.unique howner hf]

end Space

/-- The pages of `T` are as they were, but for a page at `addr` of which `P` holds. -/
def NewPage (T : Nat) (addr : LinearAddress4Level) (P : Nat → Prop) (m : Machine)
    (o : Nat → Option Place) (m' : Machine) (o' : Nat → Option Place) : Prop :=
  ∀ f q, o' f = some (T, q) → q.length = 4 → (o f = some (T, q) ∧ m'.mem f = m.mem f) ∨
    (q = addr.place 4 ∧ P f)

/-- A page that begins with `bytes` and has zeros behind them. -/
def Filled (mem : Memory) (bytes : List UInt8) (f : Nat) : Prop :=
  ∀ k : Fin 4096, mem.byte f k = bytes.getD k 0

/-- A page on demand. -/
theorem Space.setupPage (S : Space M T m₀ m o) (haddr : 256 ≤ (addr.part 4).val)
    (habsent : walk m.mem addr 4 T = none) {err : Error} (h : m.setupPageMaps addr 1 true = (err, m'))
    (herr : err ≠ .kNoEnoughMemory) :
    err = .kSuccess ∧ ∃ o' c, Builds M T m o m' o' ∧ walk m'.mem addr 4 T = some ⟨c, true, true⟩ ∧
      NewPage T addr (Filled m'.mem []) m o m' o' := by
  obtain ⟨o', hb, hpages, hkept, hcases, hdone⟩ :=
    setupPage_spec S.ne S.wellOwned S.root S.cr3 haddr S.rangeEnd habsent h
  have hok := hcases.resolve_right herr
  obtain ⟨c, hc⟩ := hdone hok
  refine ⟨hok, o', c, hb, hc, fun f q hf hq => ?_⟩
  rcases hkept.fresh f q hf hq with hold | hzero
  · exact .inl ⟨hold, hkept.page f q hold hq⟩
  · rcases hpages f q hf hq with hold | hplace
    · exact .inl ⟨hold, hkept.page f q hold hq⟩
    · exact .inr ⟨hplace, byte_of_zero hzero⟩

/-- A page of a mapping. -/
theorem Space.preparePageCache (S : Space M T m₀ m o) (haddr : 256 ≤ (addr.part 4).val)
    (habsent : walk m.mem addr 4 T = none) {fd : FileLoad} {g : FileMapping} {err : Error}
    (h : m.preparePageCache fd g addr = (err, m')) (herr : err ≠ .kNoEnoughMemory) :
    err = .kSuccess ∧ ∃ o' c, Builds M T m o m' o' ∧ walk m'.mem addr 4 T = some ⟨c, true, true⟩ ∧
      NewPage T addr (Filled m'.mem (fd.load 4096 ((({ addr with offset := 0 } :
        LinearAddress4Level).value + 2 ^ 64 - g.vaddrBegin) % 2 ^ 64))) m o m' o' := by
  rw [Machine.preparePageCache] at h
  have hpart : ∀ level, ({ addr with offset := 0 } : LinearAddress4Level).part level =
    addr.part level := part_offset addr 0
  have hplace : ({ addr with offset := 0 } : LinearAddress4Level).place 4 = addr.place 4 := by
    simp only [place_four, hpart]
  generalize ({ addr with offset := 0 } : LinearAddress4Level) = pageVaddr at h hpart hplace ⊢
  have hpage : 256 ≤ (pageVaddr.part 4).val := by
    rw [hpart]
    exact haddr
  generalize hset : m.setupPageMaps pageVaddr 1 true = set at h
  obtain ⟨err₁, m₁⟩ := set
  have hnext := S.setupPage hpage ((walk_congr_part m.mem hpart 4 T).trans habsent) hset
  by_cases hok : err₁ = .kSuccess
  · obtain ⟨-, o', c, hb, hc, hnew⟩ := hnext (by rw [hok]; decide)
    simp only [hok, if_true, Prod.mk.injEq] at h
    obtain ⟨rfl, h⟩ := h
    have S₁ := S.build hb
    have hwrite := writePage_spec S₁.wellOwned S₁.root S₁.cr3 hpage hc
      (fd.load 4096 ((pageVaddr.value + 2 ^ 64 - g.vaddrBegin) % 2 ^ 64))
    have hlen := fd.length_load 4096 ((pageVaddr.value + 2 ^ 64 - g.vaddrBegin) % 2 ^ 64)
    generalize fd.load 4096 ((pageVaddr.value + 2 ^ 64 - g.vaddrBegin) % 2 ^ 64) = bytes at h hwrite hlen ⊢
    rw [h] at hwrite
    have hmem : m'.mem = m₁.mem.setBytes c 0 bytes := by
      rw [← h, Machine.writePage, Machine.translate, S₁.cr3, hc]
    have howner : o' c = some (T, addr.place 4) := by
      obtain ⟨-, howner⟩ := S₁.wellOwned.walk_owner S₁.root rfl (fun _ => hpage) hc
      rwa [if_pos rfl, List.append_nil, hplace] at howner
    refine ⟨rfl, o', c, hb.trans hwrite, ?_, fun f q hf hq => ?_⟩
    · rw [walk_congr_part m'.mem (fun level => (hpart level).symm), hmem, setBytes_eq_setPage,
        S₁.wellOwned.walk_congr (fun f q hf hq => setPage_of_ne _ (fun hfc => ?_) _) S₁.root rfl
          fun _ => hpage]
      · exact hc
      · obtain ⟨-, rfl⟩ := Prod.mk.inj (Option.some.inj (howner.symm.trans (hfc ▸ hf)))
        exact absurd hq (by decide : ¬4 ≤ 3)
    · rcases hnew f q hf hq with ⟨hold, hsame⟩ | ⟨rfl, hzero⟩
      · -- a page that was there is not the new one
        have hfc : f ≠ c := by
          rintro rfl
          rw [howner] at hf
          cases hf
          have hsome := S.wellOwned.isSome_walk_of_owner S.root rfl (fun _ => haddr)
            (hold.trans (congrArg (fun q => some (T, q)) (List.append_nil (addr.place 4)).symm))
          rw [habsent] at hsome
          cases hsome
        refine .inl ⟨hold, ?_⟩
        rw [hmem, setBytes_eq_setPage, setPage_of_ne _ hfc, hsame]
      · rw [hplace] at hf ⊢
        obtain rfl := S₁.wellOwned.forest.unique hf howner
        refine .inr ⟨rfl, fun k => ?_⟩
        rw [hmem, Memory.byte_setBytes _ _ (by omega), Nat.sub_zero]
        split
        · rfl
        · rw [hzero k, List.getD_nil, List.getD_eq_default _ _ (by omega)]
  · simp only [hok, if_false, Prod.mk.injEq] at h
    obtain ⟨rfl, -⟩ := h
    exact absurd (hnext herr).1 hok

/-- What a page at `addr` is for: a part of the image, a page on demand, or a part of a file. -/
def Served (M : Nat) (m₀ : Machine) (task : PagingTask) (addr : LinearAddress4Level) (mem : Memory)
    (f : Nat) : Prop :=
  (walk m₀.mem addr 4 M).isSome ∨ (task.dpagingBegin ≤ addr.value ∧ addr.value < task.dpagingEnd) ∨
    ∃ g, Machine.findFileMapping task.fileMaps addr.value = some g ∧
      Filled mem ((task.files g.fd).load 4096 ((({ addr with offset := 0 } :
        LinearAddress4Level).value + 2 ^ 64 - g.vaddrBegin) % 2 ^ 64)) f

/-- A page fault brings at most one page, and where it is handled, the access finds one. -/
theorem Space.handlePageFault (S : Space M T m₀ m o) (haddr : 256 ≤ (addr.part 4).val)
    {rw user : Bool} {errorCode : Nat} {err : Error} (hraises : m.raises addr rw user = some errorCode)
    (h : m.handlePageFault task errorCode addr = (err, m')) (herr : err ≠ .kNoEnoughMemory) :
    ∃ o', Builds M T m o m' o' ∧ NewPage T addr (Served M m₀ task addr m'.mem) m o m' o' ∧
      (err = .kSuccess → (walk m'.mem addr 4 T).isSome) := by
  rcases raises_cases S.wellOwned S.root S.cr3 haddr hraises with ⟨hw, hbit⟩ | ⟨t, hw, hshared, rfl⟩
  · simp only [Machine.handlePageFault, hbit, Bool.false_and, Bool.false_eq_true, if_false] at h
    split at h
    · rename_i hdemand
      obtain ⟨-, o', c, hb, hc, hnew⟩ := S.setupPage haddr hw h herr
      exact ⟨o', hb, fun f q hf hq => (hnew f q hf hq).imp_right fun h => ⟨h.1, .inr (.inl hdemand)⟩,
        fun _ => by rw [hc]; rfl⟩
    · split at h
      · rename_i g hg
        obtain ⟨-, o', c, hb, hc, hnew⟩ := S.preparePageCache haddr hw h herr
        exact ⟨o', hb, fun f q hf hq => (hnew f q hf hq).imp_right fun h =>
          ⟨h.1, .inr (.inr ⟨g, hg, h.2⟩)⟩, fun _ => by rw [hc]; rfl⟩
      · cases h
        exact ⟨o, .refl, fun f q hf _ => .inl ⟨hf, rfl⟩, fun h => by cases h⟩
  · have hcopy : m.handlePageFault task 7 addr = m.copyOnePage addr := rfl
    rw [hcopy] at h
    rcases copyOnePage_spec S.wellOwned S.ne S.root S.cr3 S.rangeEnd haddr hw hshared with
      ⟨c, m₁, h', hcopied⟩ | ⟨h', -⟩
    · rw [h'] at h
      cases h
      refine ⟨_, hcopied.builds, fun f q hf hq => ?_, fun _ => by rw [hcopied.walk_self]; rfl⟩
      by_cases hfc : f = c
      · -- a shared page is one of the image
        rw [hfc, Function.update_self] at hf
        cases hf
        refine .inr ⟨rfl, .inl ?_⟩
        rw [← S.image addr haddr]
        refine Option.isSome_iff_ne_none.mpr fun hfree => ?_
        have hown := S.walk_own haddr (Option.not_isSome_iff_eq_none.mp
          (by rw [← S.image addr haddr, hfree]; decide)) hw
        rw [hown.1] at hshared
        cases hshared
      · rw [Function.update_of_ne hfc] at hf
        refine .inl ⟨hf, hcopied.mem f hfc fun q' hq' hf' => ?_⟩
        rw [hf] at hf'
        cases hf'
        exact absurd hq (Nat.ne_of_lt (Nat.lt_succ_of_le hq'))
    · rw [h'] at h
      cases h
      exact absurd rfl herr

/-! ## Stores -/

/-- What is mapped, in one's own tree or in the cached one, does not depend on the bytes of a page. -/
theorem Space.walk_setByteAt (S : Space M T m₀ m o) {t : Translation} (haddr : 256 ≤ (addr.part 4).val)
    (hw : walk m.mem addr 4 T = some t) (b : UInt8) {r : Nat} (hr : o r = some (r, []))
    (haddr' : 256 ≤ (addr'.part 4).val) :
    walk (m.mem.setByteAt t.frame addr.offset b) addr' 4 r = walk m.mem addr' 4 r := by
  obtain ⟨-, howner⟩ := S.wellOwned.walk_owner S.root rfl (fun _ => haddr) hw
  rw [List.append_nil] at howner
  refine S.wellOwned.walk_congr (fun f q hf hq => ?_) hr rfl fun _ => haddr'
  rw [setByteAt_eq_setPage, setPage_of_ne]
  rintro rfl
  obtain ⟨-, rfl⟩ := Prod.mk.inj (Option.some.inj (howner.symm.trans hf))
  exact absurd hq (by decide : ¬4 ≤ 3)

/-- A byte that is stored, by the application or for it, changes a page of its own or of the image. -/
theorem Space.setByteAt (S : Space M T m₀ m o) {t : Translation} (haddr : 256 ≤ (addr.part 4).val)
    (hw : walk m.mem addr 4 T = some t) (b : UInt8) :
    Space M T m₀ { m with mem := m.mem.setByteAt t.frame addr.offset b } o := by
  obtain ⟨-, howner⟩ := S.wellOwned.walk_owner S.root rfl (fun _ => haddr) hw
  rw [List.append_nil] at howner
  have H := S.wellOwned.setPage (m.mem.setByteAt t.frame addr.offset b t.frame) howner rfl
  refine ⟨S.ne, ?_, S.root, S.cached, S.cr3, S.rangeEnd, fun addr' haddr' => ?_⟩
  · rw [Machine.store, setByteAt_eq_setPage]
    exact H
  · rw [← S.image addr' haddr', S.walk_setByteAt haddr hw b S.cached haddr']

/-- The other bytes of one's own pages stay. -/
theorem Space.byte_setByteAt (S : Space M T m₀ m o) {t : Translation} (haddr : 256 ≤ (addr.part 4).val)
    (hcanon : addr.Canonical) (hw : walk m.mem addr 4 T = some t) (b : UInt8) {f : Nat}
    (hf : o f = some (T, addr'.place 4)) (hcanon' : addr'.Canonical) (hne : addr' ≠ addr) :
    (m.mem.setByteAt t.frame addr.offset b).byte f addr'.offset = m.mem.byte f addr'.offset := by
  rw [Memory.byte_setByteAt, if_neg]
  rintro ⟨rfl, hoff⟩
  obtain ⟨-, howner⟩ := S.wellOwned.walk_owner S.root rfl (fun _ => haddr) hw
  rw [List.append_nil] at howner
  obtain ⟨-, hplace⟩ := Prod.mk.inj (Option.some.inj (hf.symm.trans howner))
  exact hne (hcanon'.eq_of_place hcanon hplace hoff)

/-- What the kernel stores for the application. -/
theorem Space.storeBytes (S : Space M T m₀ m o) {stores : List (LinearAddress4Level × UInt8)}
    (hupper : ∀ st ∈ stores, 256 ≤ (st.1.part 4).val) (h : m.storeBytes stores = some m') :
    Space M T m₀ m' o ∧ ∀ (f : Nat) (addr : LinearAddress4Level), o f = some (T, addr.place 4) →
      addr.Canonical → (∀ st ∈ stores, addr ≠ st.1) →
      m'.mem.byte f addr.offset = m.mem.byte f addr.offset := by
  induction stores generalizing m with
  | nil =>
    cases h
    exact ⟨S, fun _ _ _ _ _ => rfl⟩
  | cons st stores ih =>
    obtain ⟨addr, b⟩ := st
    obtain ⟨m₁, hstore, h⟩ := Option.bind_eq_some_iff.mp h
    rw [Machine.supervisorStore, Machine.translate] at hstore
    split at hstore
    · rename_i hcanon
      split at hstore
      · cases hstore
      · rename_i t hw
        cases hstore
        rw [S.cr3] at hw
        have haddr : 256 ≤ (addr.part 4).val := hupper _ List.mem_cons_self
        obtain ⟨S', hbytes⟩ := ih (S.setByteAt haddr hw b)
          (fun st hst => hupper st (List.mem_cons_of_mem _ hst)) h
        refine ⟨S', fun f addr' hf hcanon' hne => ?_⟩
        rw [hbytes f addr' hf hcanon' fun st hst => hne st (List.mem_cons_of_mem _ hst)]
        exact S.byte_setByteAt haddr hcanon hw b hf hcanon' (hne _ List.mem_cons_self)
    · cases hstore

/-- The kernel can store where pages are. -/
theorem Space.isSome_storeBytes (S : Space M T m₀ m o) {stores : List (LinearAddress4Level × UInt8)}
    (hpages : ∀ st ∈ stores, st.1.Canonical ∧ 256 ≤ (st.1.part 4).val ∧ (walk m.mem st.1 4 T).isSome) :
    (m.storeBytes stores).isSome := by
  induction stores generalizing m with
  | nil => rfl
  | cons st stores ih =>
    obtain ⟨addr, b⟩ := st
    obtain ⟨hcanon, haddr, hsome⟩ := hpages _ List.mem_cons_self
    obtain ⟨t, hw⟩ := Option.isSome_iff_exists.mp hsome
    have hstore : m.supervisorStore addr b =
        .ok { m with mem := m.mem.setByteAt t.frame addr.offset b } := by
      rw [Machine.supervisorStore, if_pos hcanon, Machine.translate, S.cr3, hw]
    rw [Machine.storeBytes, hstore]
    refine ih (S.setByteAt haddr hw b) fun st hst => ?_
    obtain ⟨hcanon', haddr', hsome'⟩ := hpages st (List.mem_cons_of_mem _ hst)
    refine ⟨hcanon', haddr', ?_⟩
    rw [S.walk_setByteAt haddr hw b S.root haddr']
    exact hsome'

/-! ## Pages of addresses -/

theorem value_eq (addr : LinearAddress4Level) : addr.value = pageFloor addr.value + addr.offset := by
  rw [LinearAddress4Level.value, pageFloor]
  omega

theorem value_pageVaddr (addr : LinearAddress4Level) :
    ({ addr with offset := 0 } : LinearAddress4Level).value = pageFloor addr.value := by
  simp only [LinearAddress4Level.value, pageFloor, show (0 : Fin 4096).val = 0 from rfl]
  omega

/-- Addresses of one page differ in their offsets only. -/
theorem pageFloor_eq_of_place (hcanon : addr.Canonical) (hcanon' : addr'.Canonical)
    (hplace : addr'.place 4 = addr.place 4) : pageFloor addr'.value = pageFloor addr.value := by
  have hpart := part_eq_of_place hplace
  have heq : addr' = { addr with offset := addr'.offset } :=
    Canonical.ext hcanon' hcanon rfl fun level => (hpart level).trans (part_offset addr _ level).symm
  rw [← value_pageVaddr, ← value_pageVaddr, heq]

theorem raises_canonical {rw user : Bool} {errorCode : Nat} (h : m.raises addr rw user = some errorCode) :
    addr.Canonical := by
  by_contra hcanon
  cases user with
  | false => simp only [Machine.raises, Bool.false_eq_true, if_false, hcanon, false_and] at h; cases h
  | true => simp only [Machine.raises, if_true, Machine.userAccess, if_neg hcanon] at h; cases h

/-! ## The system calls, the faults and the stores -/

/-- A user load, with the page fault handled and the load made again. -/
def Machine.loadRetrying (m : Machine) (task : PagingTask) (addr : LinearAddress4Level) : Option UInt8 :=
  match m.userLoad addr with
  | .ok b => some b
  | .error (.pageFault errorCode) =>
    let (err, m) := m.handlePageFault task errorCode addr
    if err = .kSuccess then (m.userLoad addr).toOption else none
  | .error .generalProtection => none

/-- The page fault of a user load is not handled for want of a frame. -/
def Machine.lacksFrame (m : Machine) (task : PagingTask) (addr : LinearAddress4Level) : Prop :=
  match m.userLoad addr with
  | .error (.pageFault errorCode) => (m.handlePageFault task errorCode addr).1 = .kNoEnoughMemory
  | _ => False

namespace MappedFiles

/-- A running application. `stored` are the addresses that it or a system call has stored to, and
`demandTop` is the highest end that its demand-paging area has had. -/
structure State where
  m : Machine
  dpagingBegin : Nat
  dpagingEnd : Nat
  fileMapEnd : Nat
  fileMaps : List FileMapping
  vol : Volume
  files : List (Option OpenFile)
  stored : List LinearAddress4Level
  demandTop : Nat

def State.regions (s : State) : Regions where
  dpagingBegin := s.dpagingBegin
  dpagingEnd := s.dpagingEnd
  fileMapEnd := s.fileMapEnd
  fileMaps := s.fileMaps
  files := s.files.map (Option.map (·.mapped s.vol))

/-- `mapFile` comes with the address for the size of the file. `others` stands for what other system calls
and other tasks do to the volume and the open files. -/
inductive Event where
  | demandPages (numPages : Nat)
  | mapFile (fd : Int) (fileSize : Nat)
  | fault (addr : LinearAddress4Level) (rw user : Bool)
  | store (addr : LinearAddress4Level) (b : UInt8)
  | others (vol : Volume) (files : List (Option OpenFile))

/-- The application works in the upper half, and a page that a system call stores to is there: if it is not,
there is a fault of the kernel before. -/
def step (s : State) : Event → Option State
  | .demandPages numPages =>
    let r := (s.regions.demandPages numPages).2
    some { s with dpagingEnd := r.dpagingEnd, demandTop := max s.demandTop r.dpagingEnd }
  | .mapFile fd fileSize =>
    match s.regions.file fd with
    | none => some s
    | some f =>
      let stores := (BufferCall.MapFile fileSize f.size).stores
      if ∀ st ∈ stores, 256 ≤ (st.1.part 4).val then
        (s.m.storeBytes stores).map fun m =>
          let r := (s.regions.mapFile fd).2
          { s with
            m
            fileMapEnd := r.fileMapEnd
            fileMaps := r.fileMaps
            stored := stores.map (·.1) ++ s.stored }
      else none
  | .fault addr rw user =>
    (ExecuteFile.step s.m (.fault s.regions.task addr rw user)).map fun m => { s with m }
  | .store addr b =>
    (ExecuteFile.step s.m (.store addr b)).map fun m => { s with m, stored := addr :: s.stored }
  | .others vol files => some { s with vol, files }

def system : Transition.System State Event := ⟨step⟩

/-- The application when `CallApp` is reached. -/
def start (m : Machine) (vaddrEnd : Nat) (vol : Volume) (files : List (Option OpenFile)) : State :=
  let r := Regions.start vaddrEnd []
  { m
    dpagingBegin := r.dpagingBegin
    dpagingEnd := r.dpagingEnd
    fileMapEnd := r.fileMapEnd
    fileMaps := r.fileMaps
    vol
    files
    stored := []
    demandTop := r.dpagingEnd }

/-- The mappings are above the demand-paging area, and the files that are mapped still have the contents that
they had. -/
structure Keeps (contents : Nat → List UInt8) (s : State) : Prop where
  below : ∀ g ∈ s.fileMaps, s.demandTop ≤ g.vaddrBegin
  files : ∀ g ∈ s.fileMaps, ∃ file, s.files[g.fd]? = some (some file) ∧ file.Has s.vol (contents g.fd)

/-- The byte of the file for an address of the mapping, 0 behind its end. -/
def fileByte (contents : Nat → List UInt8) (g : FileMapping) (v : Nat) : UInt8 :=
  (contents g.fd).getD (v - g.vaddrBegin) 0

/-- What a page of one's own is for: it is below the highest end of the demand-paging area, a part of the
stack or above it, or a part of a mapping. -/
def Accounted (contents : Nat → List UInt8) (s : State) (f : Nat) (addr : LinearAddress4Level) : Prop :=
  pageFloor addr.value < s.demandTop ∨ stackFrameAddr.value ≤ addr.value ∨
    ∃ g ∈ s.fileMaps, g.vaddrBegin ≤ addr.value ∧ addr.value < g.vaddrEnd ∧
      (addr ∉ s.stored → s.m.mem.byte f addr.offset = fileByte contents g addr.value)

/-- A mapping on whole pages, as many as the file needs. -/
structure Fitting (contents : Nat → List UInt8) (g : FileMapping) : Prop where
  stack : g.vaddrEnd ≤ stackFrameAddr.value
  alignedBegin : 4096 ∣ g.vaddrBegin
  alignedEnd : 4096 ∣ g.vaddrEnd
  room : g.vaddrBegin + (contents g.fd).length ≤ g.vaddrEnd
  tight : g.vaddrEnd < g.vaddrBegin + (contents g.fd).length + 4096

structure Inv (M T : Nat) (m₀ : Machine) (contents : Nat → List UInt8) (s : State)
    (o : Nat → Option Place) : Prop where
  space : Space M T m₀ s.m o
  base : 0xffff800000000000 ≤ s.dpagingBegin
  image : ∀ addr : LinearAddress4Level, 256 ≤ (addr.part 4).val → s.dpagingBegin ≤ addr.value →
    walk m₀.mem addr 4 M = none
  demandBegin : s.dpagingBegin ≤ s.demandTop
  demandEnd : s.dpagingEnd ≤ s.demandTop
  stack : s.fileMapEnd ≤ stackFrameAddr.value
  mapBegin : s.dpagingBegin ≤ s.fileMapEnd
  alignedMap : 4096 ∣ s.fileMapEnd
  above : ∀ g ∈ s.fileMaps, s.fileMapEnd ≤ g.vaddrBegin
  maps : ∀ g ∈ s.fileMaps, Fitting contents g
  order : s.fileMaps.Pairwise fun f g => g.vaddrEnd ≤ f.vaddrBegin
  pages : ∀ f (addr : LinearAddress4Level), addr.Canonical → 256 ≤ (addr.part 4).val →
    s.dpagingBegin ≤ addr.value → o f = some (T, addr.place 4) → Accounted contents s f addr

variable {contents : Nat → List UInt8} {s s' : State}

theorem Inv.demandPages (I : Inv M T m₀ contents s o) {numPages : Nat}
    (h : step s (.demandPages numPages) = some s') : Inv M T m₀ contents s' o := by
  cases h
  refine ⟨I.space, I.base, I.image, I.demandBegin.trans (le_max_left ..), le_max_right .., I.stack,
    I.mapBegin, I.alignedMap, I.above, I.maps, I.order, fun f addr hcanon haddr hlo hf => ?_⟩
  exact (I.pages f addr hcanon haddr hlo hf).imp_left fun h => h.trans_le (le_max_left ..)

theorem Inv.others (I : Inv M T m₀ contents s o) {vol : Volume} {files : List (Option OpenFile)}
    (h : step s (.others vol files) = some s') : Inv M T m₀ contents s' o := by
  cases h
  exact ⟨I.space, I.base, I.image, I.demandBegin, I.demandEnd, I.stack, I.mapBegin, I.alignedMap,
    I.above, I.maps, I.order, I.pages⟩

/-- A store to one's memory. -/
theorem Inv.store (I : Inv M T m₀ contents s o) {b : UInt8}
    (h : step s (.store addr b) = some s') : Inv M T m₀ contents s' o := by
  obtain ⟨m', hstep, rfl⟩ := Option.map_eq_some_iff.mp h
  simp only [ExecuteFile.step, Option.ite_none_right_eq_some] at hstep
  obtain ⟨haddr, hstep⟩ := hstep
  have hstore : s.m.userStore addr b = .ok m' := by
    cases hu : s.m.userStore addr b with
    | error => rw [hu] at hstep; cases hstep
    | ok m₁ => rw [hu] at hstep; cases hstep; rfl
  obtain ⟨hcanon, t, hw, -, rfl⟩ := userStore_ok hstore
  rw [I.space.cr3] at hw
  refine ⟨I.space.setByteAt haddr hw b, I.base, I.image, I.demandBegin, I.demandEnd, I.stack, I.mapBegin,
    I.alignedMap, I.above, I.maps, I.order, fun f addr' hcanon' haddr' hlo hf => ?_⟩
  refine (I.pages f addr' hcanon' haddr' hlo hf).imp_right (Or.imp_right fun h => ?_)
  obtain ⟨g, hg, hbegin, hend, hbyte⟩ := h
  refine ⟨g, hg, hbegin, hend, fun hnot => ?_⟩
  rw [List.mem_cons, not_or] at hnot
  rw [← hbyte hnot.2]
  exact I.space.byte_setByteAt haddr hcanon hw b hf hcanon' hnot.1

/-- The file of a descriptor that is in the table. -/
theorem regions_file {fd : Int} {f : MappedFile} (h : s.regions.file fd = some f) :
    ∃ file, s.files[fd.toNat]? = some (some file) ∧ f = file.mapped s.vol := by
  rw [Regions.file] at h
  split at h
  · cases h
  · change ((s.files.map (Option.map (·.mapped s.vol)))[fd.toNat]?).join = some f at h
    rw [List.getElem?_map] at h
    cases hfile : s.files[fd.toNat]? with
    | none =>
      rw [hfile] at h
      cases h
    | some file =>
      rw [hfile] at h
      cases file with
      | none => cases h
      | some file =>
        cases h
        exact ⟨file, rfl, rfl⟩

theorem regions_task_files {fd : Nat} {file : OpenFile} (h : s.files[fd]? = some (some file)) :
    s.regions.task.files fd = (file.mapped s.vol).toFileLoad := by
  change (((s.files.map (Option.map (·.mapped s.vol)))[fd]?).join.map (·.toFileLoad)).getD _ = _
  rw [List.getElem?_map, h]
  rfl

/-- A new mapping. -/
theorem Inv.mapFile (I : Inv M T m₀ contents s o) {fd : Int} {fileSize : Nat}
    (h : step s (.mapFile fd fileSize) = some s') (K : Keeps contents s') : Inv M T m₀ contents s' o := by
  rw [step] at h
  split at h
  · cases h
    exact I
  · rename_i f hf
    obtain ⟨file, hfile, rfl⟩ := regions_file hf
    dsimp only at h
    split at h
    · rename_i hupper
      obtain ⟨m', hstores, rfl⟩ := Option.map_eq_some_iff.mp h
      obtain ⟨S', hbytes⟩ := I.space.storeBytes hupper hstores
      have hmap : (s.regions.mapFile fd).2.fileMaps = s.fileMaps ++ [⟨fd.toNat, pageFloor
          ((s.fileMapEnd + 2 ^ 64 - (file.mapped s.vol).size % 2 ^ 64) % 2 ^ 64), s.fileMapEnd⟩] ∧
          (s.regions.mapFile fd).2.fileMapEnd = pageFloor
            ((s.fileMapEnd + 2 ^ 64 - (file.mapped s.vol).size % 2 ^ 64) % 2 ^ 64) := by
        rw [Regions.mapFile, hf]
        exact ⟨rfl, rfl⟩
      generalize (s.regions.mapFile fd).2 = r at hmap K ⊢
      obtain ⟨hmaps, hend⟩ := hmap
      -- the new mapping and its file
      generalize hg : (⟨fd.toNat, pageFloor ((s.fileMapEnd + 2 ^ 64 - (file.mapped s.vol).size % 2 ^ 64) %
        2 ^ 64), s.fileMapEnd⟩ : FileMapping) = g at hmaps
      have hmem : g ∈ r.fileMaps := by
        rw [hmaps]
        exact List.mem_append_right _ List.mem_cons_self
      have hgfd : g.fd = fd.toNat := by rw [← hg]
      have hgend : g.vaddrEnd = s.fileMapEnd := by rw [← hg]
      have hhas : file.Has s.vol (contents g.fd) := by
        obtain ⟨file', hfile', hhas⟩ := K.files g hmem
        simp only [hgfd] at hfile'
        rw [hfile] at hfile'
        cases hfile'
        exact hhas
      have hlen := hhas.length_lt
      have hlow := I.base.trans I.mapBegin
      have hstack := I.stack
      have hvalue := Regions.stackFrameAddr_value
      have haligned := I.alignedMap
      have hgbegin : g.vaddrBegin = pageFloor (s.fileMapEnd - (contents g.fd).length) := by
        rw [← hhas.size] at hlen ⊢
        rw [← hg]
        exact congrArg pageFloor (by omega)
      have hbelow := K.below g hmem
      simp only at hbelow
      have hdemand := I.demandBegin
      have hrend : r.fileMapEnd = g.vaddrBegin := by rw [hend, ← hg]
      have hle : g.vaddrBegin ≤ s.fileMapEnd := by
        rw [hgbegin, pageFloor]
        omega
      have hfitting : Fitting contents g := by
        refine ⟨?_, ?_, ?_, ?_, ?_⟩
        · rw [hgend]
          exact hstack
        · rw [hgbegin]
          exact Regions.pageFloor_dvd _
        · rw [hgend]
          exact haligned
        · rw [hgend, hgbegin, pageFloor]
          omega
        · rw [hgend, hgbegin, pageFloor]
          omega
      refine ⟨S', I.base, I.image, I.demandBegin, I.demandEnd, ?_, ?_, ?_, fun g' hg' => ?_, fun g' hg' => ?_,
        ?_, fun f addr hcanon haddr hlo hf => ?_⟩
      · change r.fileMapEnd ≤ _
        rw [hrend]
        exact hle.trans hstack
      · change s.dpagingBegin ≤ r.fileMapEnd
        rw [hrend]
        exact hdemand.trans hbelow
      · change 4096 ∣ r.fileMapEnd
        rw [hrend]
        exact hfitting.alignedBegin
      · change r.fileMapEnd ≤ g'.vaddrBegin
        rw [hrend]
        rcases List.mem_append.mp (hmaps ▸ hg') with hg' | hg'
        · exact hle.trans (I.above g' hg')
        · rw [List.mem_singleton.mp hg']
      · rcases List.mem_append.mp (hmaps ▸ hg') with hg' | hg'
        · exact I.maps g' hg'
        · rw [List.mem_singleton.mp hg']
          exact hfitting
      · change r.fileMaps.Pairwise _
        rw [hmaps, List.pairwise_append]
        refine ⟨I.order, List.pairwise_singleton .., fun g₁ hg₁ g₂ hg₂ => ?_⟩
        rw [List.mem_singleton.mp hg₂, hgend]
        exact I.above g₁ hg₁
      · refine (I.pages f addr hcanon haddr hlo hf).imp_right (Or.imp_right fun h => ?_)
        obtain ⟨g', hg', hbegin, hend, hbyte⟩ := h
        refine ⟨g', hmaps ▸ List.mem_append_left _ hg', hbegin, hend, fun hnot => ?_⟩
        rw [List.mem_append, not_or] at hnot
        rw [← hbyte hnot.2]
        refine hbytes f addr hf hcanon fun st hst heq => hnot.1 ?_
        rw [heq]
        exact List.mem_map_of_mem hst
    · cases h

/-- The bytes of a page that is filled from the file. -/
theorem Fitting.byte {g : FileMapping} (hfit : Fitting contents g) {file : OpenFile}
    (hhas : file.Has s.vol (contents g.fd)) {mem : Memory} {f : Nat} (hlo : g.vaddrBegin ≤ addr.value)
    (hhi : addr.value < g.vaddrEnd) (hcanon : addr.Canonical) (hcanon' : addr'.Canonical)
    (hplace : addr'.place 4 = addr.place 4)
    (hfilled : Filled mem ((file.mapped s.vol).load 4096 ((({ addr with offset := 0 } :
      LinearAddress4Level).value + 2 ^ 64 - g.vaddrBegin) % 2 ^ 64)) f) :
    g.vaddrBegin ≤ addr'.value ∧ addr'.value < g.vaddrEnd ∧
      mem.byte f addr'.offset = fileByte contents g addr'.value := by
  have hbegin := hfit.alignedBegin
  have hend := hfit.alignedEnd
  have htight := hfit.tight
  have hstack := hfit.stack
  have hvalue := Regions.stackFrameAddr_value
  have haddr := value_eq addr
  have haddr' := value_eq addr'
  rw [pageFloor_eq_of_place hcanon hcanon' hplace] at haddr'
  have hfloor : 4096 ∣ pageFloor addr.value := Regions.pageFloor_dvd _
  rw [value_pageVaddr] at hfilled
  generalize pageFloor addr.value = page at *
  have hpage : g.vaddrBegin ≤ page := by omega
  have hnext : page + 4096 ≤ g.vaddrEnd := by omega
  have hoffset : (page + 2 ^ 64 - g.vaddrBegin) % 2 ^ 64 = page - g.vaddrBegin := by omega
  rw [hoffset, hhas.load (by omega)] at hfilled
  refine ⟨by omega, by omega, ?_⟩
  rw [hfilled, fileByte, show addr'.value - g.vaddrBegin = page - g.vaddrBegin + addr'.offset by omega,
    List.getD_eq_getElem?_getD, List.getD_eq_getElem?_getD, List.getElem?_take_of_lt addr'.offset.isLt,
    List.getElem?_drop]

/-- A page fault. -/
theorem Inv.fault (I : Inv M T m₀ contents s o) (K : Keeps contents s) (haddr : 256 ≤ (addr.part 4).val)
    {rw user : Bool} {errorCode : Nat} {err : Error} (hraises : s.m.raises addr rw user = some errorCode)
    (h : s.m.handlePageFault s.regions.task errorCode addr = (err, m')) (herr : err ≠ .kNoEnoughMemory) :
    ∃ o', Inv M T m₀ contents { s with m := m' } o' ∧
      (err = .kSuccess → (walk m'.mem addr 4 T).isSome) := by
  obtain ⟨o', hb, hnew, hdone⟩ := I.space.handlePageFault haddr hraises h herr
  have hcanon := raises_canonical hraises
  refine ⟨o', ⟨I.space.build hb, I.base, I.image, I.demandBegin, I.demandEnd, I.stack, I.mapBegin,
    I.alignedMap, I.above, I.maps, I.order, fun f addr' hcanon' haddr' hlo hf => ?_⟩, hdone⟩
  rcases hnew f _ hf rfl with ⟨hold, hsame⟩ | ⟨hplace, himage | ⟨-, hdemand⟩ | ⟨g, hg, hfilled⟩⟩
  · refine (I.pages f addr' hcanon' haddr' hlo hold).imp_right (Or.imp_right fun h => ?_)
    obtain ⟨g, hg, hbegin, hend, hbyte⟩ := h
    exact ⟨g, hg, hbegin, hend, fun hnot => (byte_congr hsame _).trans (hbyte hnot)⟩
  · -- the image is not mapped at this page
    have hfree := I.image addr' haddr' hlo
    rw [walk_congr_part m₀.mem (part_eq_of_place hplace)] at hfree
    rw [hfree] at himage
    cases himage
  · refine .inl ?_
    rw [pageFloor_eq_of_place hcanon hcanon' hplace]
    have hle := value_eq addr
    have hend : addr.value < s.dpagingEnd := hdemand
    have htop := I.demandEnd
    simp only
    omega
  · have hmem : g ∈ s.fileMaps := List.mem_of_find?_eq_some hg
    have hin := List.find?_some hg
    simp only [Bool.and_eq_true, decide_eq_true_eq] at hin
    obtain ⟨file, hfile, hhas⟩ := K.files g hmem
    rw [regions_task_files hfile] at hfilled
    obtain ⟨hbegin, hend, hbyte⟩ :=
      (I.maps g hmem).byte hhas hin.1 hin.2 hcanon hcanon' hplace hfilled
    exact .inr (.inr ⟨g, hmem, hbegin, hend, fun _ => hbyte⟩)

/-- The invariant survives each step that leaves the files alone. -/
theorem Inv.step (I : Inv M T m₀ contents s o) (K : Keeps contents s) {e : Event}
    (h : step s e = some s') (K' : Keeps contents s') : ∃ o', Inv M T m₀ contents s' o' := by
  cases e with
  | demandPages numPages => exact ⟨o, I.demandPages h⟩
  | mapFile fd fileSize => exact ⟨o, I.mapFile h K'⟩
  | store addr b => exact ⟨o, I.store h⟩
  | others vol files => exact ⟨o, I.others h⟩
  | fault addr rw user =>
    obtain ⟨m', hstep, rfl⟩ := Option.map_eq_some_iff.mp h
    simp only [ExecuteFile.step] at hstep
    split at hstep
    · rename_i errorCode hraises
      generalize hhandle : s.m.handlePageFault s.regions.task errorCode addr = handled at hstep
      obtain ⟨err, m₁⟩ := handled
      simp only [Option.ite_none_right_eq_some, Option.some.injEq] at hstep
      obtain ⟨⟨haddr, herr⟩, rfl⟩ := hstep
      obtain ⟨o', I', -⟩ := I.fault K haddr hraises hhandle herr
      exact ⟨o', I'⟩
    · cases hstep

/-! ## Loads -/

/-- An upper half address is canonical. -/
theorem upper_of_le (h : 0xffff800000000000 ≤ addr.value) :
    256 ≤ (addr.part 4).val ∧ addr.Canonical := by
  have hupper : addr.upper = 65535 ∧ 256 ≤ addr.pml4.val := by
    rw [Fin.ext_iff]
    simp only [LinearAddress4Level.value] at h
    omega
  refine ⟨hupper.2, ?_⟩
  rw [Canonical, hupper.1, if_neg]
  exact Nat.not_lt.mpr hupper.2

theorem Inv.upper (I : Inv M T m₀ contents s o) (K : Keeps contents s) {g : FileMapping}
    (hg : g ∈ s.fileMaps) (hlo : g.vaddrBegin ≤ addr.value) :
    s.dpagingBegin ≤ addr.value ∧ 256 ≤ (addr.part 4).val ∧ addr.Canonical := by
  have hbegin := (I.demandBegin.trans (K.below g hg)).trans hlo
  exact ⟨hbegin, upper_of_le (I.base.trans hbegin)⟩

/-- A page of a mapping that is there has the bytes of the file. -/
theorem Inv.userLoad (I : Inv M T m₀ contents s o) (K : Keeps contents s) {g : FileMapping}
    (hg : g ∈ s.fileMaps) (hlo : g.vaddrBegin ≤ addr.value) (hhi : addr.value < g.vaddrEnd)
    (hnot : addr ∉ s.stored) (hsome : (walk s.m.mem addr 4 T).isSome) :
    s.m.userLoad addr = .ok (fileByte contents g addr.value) := by
  obtain ⟨hbegin, haddr, hcanon⟩ := I.upper K hg hlo
  obtain ⟨t, hw⟩ := Option.isSome_iff_exists.mp hsome
  obtain ⟨-, howner⟩ := I.space.walk_own haddr (I.image addr haddr hbegin) hw
  have hbyte : s.m.mem.byte t.frame addr.offset = fileByte contents g addr.value := by
    rcases I.pages t.frame addr hcanon haddr hbegin howner with
      hdemand | hstack | ⟨g', hg', hlo', hhi', hbyte⟩
    · have hbelow := K.below g hg
      have haligned := (I.maps g hg).alignedBegin
      rw [pageFloor] at hdemand
      omega
    · exact absurd hstack (Nat.not_le.mpr (hhi.trans_le (I.maps g hg).stack))
    · -- the mappings do not overlap
      have hfind := Regions.findFileMapping_of_order I.order hg hlo hhi
      rw [Regions.findFileMapping_of_order I.order hg' hlo' hhi'] at hfind
      cases hfind
      exact hbyte hnot
  refine userLoad_eq (M := M) (o := o) I.space.wellOwned ?_ haddr hcanon ?_
  · rw [I.space.cr3]
    exact I.space.root
  · rw [view, I.space.cr3, hw, Option.map_some, hbyte]

/-- A load from a mapping gives the byte of the file, whether its page is there or not, unless there is no
frame for the page. -/
theorem Inv.loadRetrying (I : Inv M T m₀ contents s o) (K : Keeps contents s) {g : FileMapping}
    (hg : g ∈ s.fileMaps) (hlo : g.vaddrBegin ≤ addr.value) (hhi : addr.value < g.vaddrEnd)
    (hnot : addr ∉ s.stored) :
    s.m.loadRetrying s.regions.task addr = some (fileByte contents g addr.value) ∨
      s.m.lacksFrame s.regions.task addr := by
  obtain ⟨hbegin, haddr, hcanon⟩ := I.upper K hg hlo
  cases hw : walk s.m.mem addr 4 T with
  | some t =>
    left
    rw [Machine.loadRetrying, I.userLoad K hg hlo hhi hnot (by rw [hw]; rfl)]
  | none =>
    have haccess : s.m.userAccess addr false = .error (.pageFault 4) := by
      rw [Machine.userAccess, if_pos hcanon, Machine.translate, I.space.cr3, hw]
      rfl
    have hload : s.m.userLoad addr = .error (.pageFault 4) := by
      rw [Machine.userLoad, haccess]
      rfl
    have hraises : s.m.raises addr false true = some 4 := by
      simp only [Machine.raises, if_true, haccess]
    have hprepare : s.m.handlePageFault s.regions.task 4 addr =
        s.m.preparePageCache (s.regions.task.files g.fd) g addr :=
      Regions.fileFault rfl s.m ((I.demandEnd.trans (K.below g hg)).trans hlo)
        (Regions.findFileMapping_of_order I.order hg hlo hhi)
    generalize hhandle : s.m.handlePageFault s.regions.task 4 addr = handled
    obtain ⟨err, m'⟩ := handled
    by_cases herr : err = .kNoEnoughMemory
    · right
      simp only [Machine.lacksFrame, hload, hhandle, herr]
    · left
      obtain ⟨rfl, -⟩ := I.space.preparePageCache haddr hw (hprepare ▸ hhandle) herr
      obtain ⟨o', I', hdone⟩ := I.fault K haddr hraises hhandle herr
      have hagain := I'.userLoad ⟨K.below, K.files⟩ hg hlo hhi hnot (hdone rfl)
      simp only [Machine.loadRetrying, hload, hhandle, if_true, hagain]
      rfl

/-! ## The beginning -/

theorem stack_le_value (hcanon : addr.Canonical) (hpml4 : addr.pml4 = 511) (hpdp : addr.pdp = 511)
    (hdir : addr.dir = 511) (hpage : 494 ≤ addr.page.val) : stackFrameAddr.value ≤ addr.value := by
  have hupper : addr.upper = 65535 := by
    rw [Canonical, hpml4] at hcanon
    exact hcanon
  rw [Regions.stackFrameAddr_value, LinearAddress4Level.value, hupper, hpml4, hpdp, hdir]
  simp only [show (65535 : Fin 65536).val = 65535 from rfl, show (511 : Fin 512).val = 511 from rfl]
  omega

/-- The application begins with pages for its arguments and its stack only. -/
theorem Inv.start {o₀ : Nat → Option Place} (H₀ : WellOwned M (m₀.store o₀)) (hM : o₀ M = some (M, []))
    (hend : m₀.memoryManager.rangeEnd ≤ 2 ^ 40) {vaddrEnd : Nat} (hlo : 0xffff800000000000 ≤ vaddrEnd)
    (hhi : vaddrEnd ≤ stackFrameAddr.value)
    (himage : ∀ addr : LinearAddress4Level, 256 ≤ (addr.part 4).val →
      pageFloor ((vaddrEnd + 4095) % 2 ^ 64) ≤ addr.value → walk m₀.mem addr 4 M = none)
    {argv : List UInt8} (h : m₀.executeFileBegin M argv = (.kSuccess, m)) (contents : Nat → List UInt8)
    (vol : Volume) (files : List (Option OpenFile)) :
    ∃ T o, Inv M T m₀ contents (start m vaddrEnd vol files) o := by
  have hvalue := Regions.stackFrameAddr_value
  have hnext : 0xffff800000000000 ≤ pageFloor ((vaddrEnd + 4095) % 2 ^ 64) ∧
      pageFloor ((vaddrEnd + 4095) % 2 ^ 64) ≤ stackFrameAddr.value := by
    rw [pageFloor]
    omega
  have hargs : walk m₀.mem argsFrameAddr 4 M = none :=
    himage argsFrameAddr (by decide) (hnext.2.trans (by decide))
  have hstack (addr : LinearAddress4Level) (hsame : SamePages stackFrameAddr 16 addr) :
      walk m₀.mem addr 4 M = none := by
    have hcanon : ({ addr with upper := 65535 } : LinearAddress4Level).Canonical := by
      have hpml4 : addr.pml4 = 511 := hsame.1 4 (by decide)
      change (65535 : Fin 65536) = if addr.pml4 < 256 then 0 else 65535
      rw [hpml4]
      rfl
    have hpart (level : Nat) :
        addr.part level = ({ addr with upper := 65535 } : LinearAddress4Level).part level := by
      rcases level with _ | _ | _ | _ | _ | level <;> rfl
    rw [walk_congr_part m₀.mem hpart]
    refine himage _ ?_ (hnext.2.trans (stack_le_value hcanon (hsame.1 4 (by decide))
      (hsame.1 3 (by decide)) (hsame.1 2 (by decide)) hsame.2.1))
    exact le_of_le_of_eq (by decide) (congrArg Fin.val (hsame.1 4 (by decide))).symm
  obtain ⟨T, o, hT, -, A, hpages⟩ := Alive.begin H₀ hM hend hargs hstack h
  refine ⟨T, o, ⟨hT, A.wellOwned, A.root, (A.frame.other H₀ hM hT.symm).2, A.cr3, A.rangeEnd,
    fun addr haddr => congrArg Option.isSome (A.walk_eq H₀ hM hT.symm haddr)⟩, hnext.1, himage,
    Nat.le_refl _, Nat.le_refl _,
    Nat.le_refl _, hnext.2, ?_, fun g hg => absurd hg List.not_mem_nil,
    fun g hg => absurd hg List.not_mem_nil, .nil, fun f addr hcanon haddr _ hf => .inr (.inl ?_)⟩
  · change 4096 ∣ stackFrameAddr.value
    rw [hvalue]
    decide
  · rcases hpages f _ hf rfl with hplace | ⟨addr', hsame, hplace⟩
    · have hpart := part_eq_of_place hplace
      exact stack_le_value hcanon (hpart 4) (hpart 3) (hpart 2)
        (le_of_le_of_eq (by decide) (congrArg Fin.val (hpart 1)).symm)
    · have hpart := part_eq_of_place hplace
      exact stack_le_value hcanon ((hpart 4).trans (hsame.1 4 (by decide)))
        ((hpart 3).trans (hsame.1 3 (by decide))) ((hpart 2).trans (hsame.1 2 (by decide)))
        (hsame.2.1.trans_eq (congrArg Fin.val (hpart 1)).symm)

/-! ## Runs -/

/-- The system calls and the faults of an application leave its descriptors as they are. -/
theorem files_of_step {e : Event} (he : ∀ vol files, e ≠ .others vol files)
    (h : step s e = some s') : s'.files = s.files ∧ s'.vol = s.vol := by
  cases e with
  | demandPages numPages =>
    cases h
    exact ⟨rfl, rfl⟩
  | mapFile fd fileSize =>
    rw [step] at h
    split at h
    · cases h
      exact ⟨rfl, rfl⟩
    · dsimp only at h
      split at h
      · obtain ⟨m', -, rfl⟩ := Option.map_eq_some_iff.mp h
        exact ⟨rfl, rfl⟩
      · cases h
  | fault addr rw user =>
    obtain ⟨m', -, rfl⟩ := Option.map_eq_some_iff.mp h
    exact ⟨rfl, rfl⟩
  | store addr b =>
    obtain ⟨m', -, rfl⟩ := Option.map_eq_some_iff.mp h
    exact ⟨rfl, rfl⟩
  | others vol files => exact absurd rfl (he vol files)

theorem files_of_run {es : List Event} (hrun : system.Run s es s')
    (hown : ∀ e ∈ es, ∀ vol files, e ≠ .others vol files) : s'.files = s.files ∧ s'.vol = s.vol := by
  refine hrun.invariant_of_forall (I := fun t => t.files = s.files ∧ t.vol = s.vol)
    (P := fun _ e => ∀ vol files, e ≠ .others vol files) (fun t e t' hI hP hstep => ?_) ⟨rfl, rfl⟩
    fun pre e post t hes _ => hown e (hes ▸ List.mem_append_right _ List.mem_cons_self)
  obtain ⟨hfiles, hvol⟩ := files_of_step hP hstep
  exact ⟨hfiles.trans hI.1, hvol.trans hI.2⟩

/-- The mappings are whole pages below the stack and apart from each other, and a byte that is not stored to
is the one of the file, 0 behind its end. -/
structure Mapped (contents : Nat → List UInt8) (s : State) : Prop where
  fitting : ∀ g ∈ s.fileMaps, Fitting contents g
  apart : s.fileMaps.Pairwise fun f g => g.vaddrEnd ≤ f.vaddrBegin
  bytes : ∀ g ∈ s.fileMaps, ∀ k, g.vaddrBegin + k < g.vaddrEnd →
    LinearAddress4Level.ofValue (g.vaddrBegin + k) ∉ s.stored →
    s.m.loadRetrying s.regions.task (.ofValue (g.vaddrBegin + k)) = some ((contents g.fd).getD k 0) ∨
      s.m.lacksFrame s.regions.task (.ofValue (g.vaddrBegin + k))

theorem Inv.mapped (I : Inv M T m₀ contents s o) (K : Keeps contents s) : Mapped contents s := by
  refine ⟨I.maps, I.order, fun g hg k hk hnot => ?_⟩
  have hstack := (I.maps g hg).stack
  have hvalue := Regions.stackFrameAddr_value
  have hval : (LinearAddress4Level.ofValue (g.vaddrBegin + k)).value = g.vaddrBegin + k :=
    value_ofValue (by omega)
  have hload := I.loadRetrying K hg (by omega) (by omega) hnot
  rwa [fileByte, hval, Nat.add_sub_cancel_left] at hload

theorem Inv.run (I : Inv M T m₀ contents s o) {es : List Event} (hrun : system.Run s es s')
    (hkeeps : ∀ pre post t, es = pre ++ post → system.Run s pre t → Keeps contents t) :
    ∃ o', Inv M T m₀ contents s' o' :=
  hrun.invariant_of_forall (I := fun t => ∃ o, Inv M T m₀ contents t o)
    (P := fun t e => Keeps contents t ∧ ∀ t', MappedFiles.step t e = some t' → Keeps contents t')
    (fun t e t' hI hP hstep => by
      obtain ⟨o, I⟩ := hI
      exact I.step hP.1 hstep (hP.2 t' hstep)) ⟨o, I⟩
    fun pre e post t hes hpre => ⟨hkeeps pre (e :: post) t hes hpre, fun t' hstep =>
      hkeeps (pre ++ [e]) post t' (by rw [hes, List.append_assoc]; rfl) (hpre.snoc hstep)⟩

theorem mapFile_fileMaps {fd : Int} {fileSize : Nat}
    (h : system.step s (.mapFile fd fileSize) = some s') :
    s'.fileMaps = (s.regions.mapFile fd).2.fileMaps ∧ s'.demandTop = s.demandTop := by
  change step s (.mapFile fd fileSize) = some s' at h
  rw [step] at h
  split at h
  · rename_i hf
    cases h
    rw [Regions.mapFile, hf]
    exact ⟨rfl, rfl⟩
  · dsimp only at h
    split at h
    · obtain ⟨m', -, rfl⟩ := Option.map_eq_some_iff.mp h
      exact ⟨rfl, rfl⟩
    · cases h

/-- A volume with a file of three bytes in the cluster 3. -/
def threeBytes : Volume where
  bytesPerCluster := 512
  rootCluster := 2
  fatWords := 128
  fat := fun c => if c < 4 then kEndOfClusterchain else 0
  data := fun c i => if c = 3 then .ofNat (i + 1) else 0
  entry := fun _ => ⟨.replicate 11 0, 0, 0, 3, 3⟩

def threeBytesFiles : List (Option OpenFile) := [some .stream, some (.fat { fatEntry := ⟨2, 0⟩ })]

theorem threeBytes_has : (OpenFile.fat { fatEntry := ⟨2, 0⟩ }).Has threeBytes [1, 2, 3] := by
  refine ⟨126, [3], ⟨by decide, by decide, by decide⟩, ⟨fun _ => ⟨.last (by decide), fun x hx => ?_⟩,
    fun h => absurd h (by decide), by decide, by decide⟩, by decide +kernel⟩
  rw [List.mem_singleton.mp hx]
  decide

/-- The image ends with its page. -/
theorem imageMachine_end (addr : LinearAddress4Level) (h : 0xffff800000001000 ≤ addr.value) :
    walk imageMachine.mem addr 4 1 = none := by
  have hone : ∀ i, (imageMemory 1 i).present = true → i = 256 := by decide +kernel
  have hzero : ∀ n, n = 2 ∨ n = 3 ∨ n = 4 → ∀ i, (imageMemory n i).present = true → i = 0 := by
    rintro n (rfl | rfl | rfl)
    all_goals decide +kernel
  by_contra hw
  obtain ⟨t, hw⟩ := Option.ne_none_iff_exists'.mp hw
  have hnext {level table : Nat} {t : Translation}
      (hw : walk imageMachine.mem addr (level + 1) table = some t)
      (hhuge : ∀ i, (imageMemory table i).hugePage = false) :
      (imageMemory table (addr.part (level + 1))).present = true ∧
        ∃ t', walk imageMachine.mem addr level
          (imageMemory table (addr.part (level + 1))).pointer = some t' := by
    have hhuge' : (imageMachine.mem table (addr.part (level + 1))).hugePage = false := hhuge _
    rw [walk_succ, hhuge', Option.ite_none_right_eq_some] at hw
    obtain ⟨hpres, hw⟩ := hw
    simp only [Bool.false_eq_true, false_and, if_false] at hw
    obtain ⟨t', hw, -⟩ := Option.map_eq_some_iff.mp hw
    exact ⟨hpres, t', hw⟩
  obtain ⟨h4, t, hw⟩ := hnext hw (by decide +kernel)
  have h4 := hone _ h4
  rw [h4] at hw
  obtain ⟨h3, t, hw⟩ := hnext hw (by decide +kernel)
  have h3 := hzero 2 (.inl rfl) _ h3
  rw [h3] at hw
  obtain ⟨h2, t, hw⟩ := hnext hw (by decide +kernel)
  have h2 := hzero 3 (.inr (.inl rfl)) _ h2
  rw [h2] at hw
  obtain ⟨h1, -⟩ := hnext hw (by decide +kernel)
  have h1 := hzero 4 (.inr (.inr rfl)) _ h1
  change addr.page = 0 at h1
  change addr.dir = 0 at h2
  change addr.pdp = 0 at h3
  change addr.pml4 = 256 at h4
  rw [LinearAddress4Level.value, h1, h2, h3, h4] at h
  simp only [show (0 : Fin 512).val = 0 from rfl, show (256 : Fin 512).val = 256 from rfl] at h
  omega

/-- The image is stored to, and then the file is mapped. Its size goes to the stack. -/
def threeBytesEvents : List Event :=
  [.fault (.ofValue 0xffff800000000000) true true, .mapFile 1 0xfffffffffffee000]

/-- The file is mapped to the page below the stack. -/
theorem threeBytes_fileMaps {pre post : List Event} (hes : threeBytesEvents = pre ++ post)
    (hrun : system.Run (start m 0xffff800000001000 threeBytes threeBytesFiles) pre s) :
    s.demandTop = (Regions.start 0xffff800000001000 []).dpagingEnd ∧
      s.fileMaps.map (fun g => (g.fd, g.vaddrBegin, g.vaddrEnd)) =
        if pre.length < 2 then [] else [(1, 0xfffffffffffed000, 0xfffffffffffee000)] := by
  have hexec := Transition.System.exec_of_run hrun
  have hmem : pre ∈ threeBytesEvents.inits := (List.mem_inits ..).mpr ⟨post, hes.symm⟩
  simp only [threeBytesEvents, List.inits, List.map_cons, List.map_nil, List.mem_cons,
    List.not_mem_nil, or_false] at hmem
  rcases hmem with rfl | rfl | rfl
  · cases hexec
    exact ⟨rfl, rfl⟩
  · obtain ⟨s₁, h₁, hexec⟩ := Option.bind_eq_some_iff.mp hexec
    obtain ⟨m₁, -, rfl⟩ := Option.map_eq_some_iff.mp h₁
    cases hexec
    exact ⟨rfl, rfl⟩
  · obtain ⟨s₁, h₁, hexec⟩ := Option.bind_eq_some_iff.mp hexec
    obtain ⟨m₁, -, rfl⟩ := Option.map_eq_some_iff.mp h₁
    obtain ⟨s₂, h₂, hexec⟩ := Option.bind_eq_some_iff.mp hexec
    cases hexec
    obtain ⟨hmaps, htop⟩ := mapFile_fileMaps h₂
    rw [hmaps, htop]
    refine ⟨rfl, ?_⟩
    have hmapped : ((Regions.start 0xffff800000001000 (threeBytesFiles.map (Option.map
        (·.mapped threeBytes)))).mapFile 1).2.fileMaps.map (fun g => (g.fd, g.vaddrBegin, g.vaddrEnd)) =
          [(1, 0xfffffffffffed000, 0xfffffffffffee000)] := by decide +kernel
    exact hmapped

theorem threeBytes_keeps {pre post : List Event} (hes : threeBytesEvents = pre ++ post)
    (hrun : system.Run (start m 0xffff800000001000 threeBytes threeBytesFiles) pre s) :
    Keeps (fun _ => [1, 2, 3]) s := by
  have hown : ∀ e ∈ pre, ∀ vol files, e ≠ .others vol files := by
    intro e he vol files heq
    have hmem : e ∈ threeBytesEvents := hes ▸ List.mem_append_left _ he
    rw [heq] at hmem
    simp [threeBytesEvents] at hmem
  obtain ⟨hfiles, hvol⟩ := files_of_run hrun hown
  obtain ⟨htop, heq⟩ := threeBytes_fileMaps hes hrun
  have hmaps : ∀ g ∈ s.fileMaps, g.fd = 1 ∧ s.demandTop ≤ g.vaddrBegin := by
    intro g hg
    have hmem := List.mem_map_of_mem (f := fun g : FileMapping => (g.fd, g.vaddrBegin, g.vaddrEnd)) hg
    rw [heq] at hmem
    split at hmem
    · cases hmem
    · obtain ⟨hfd, hrange⟩ := Prod.mk.inj (List.mem_singleton.mp hmem)
      obtain ⟨hbegin, -⟩ := Prod.mk.inj hrange
      rw [hfd, hbegin, htop]
      exact ⟨rfl, by decide +kernel⟩
  refine ⟨fun g hg => (hmaps g hg).2, fun g hg => ⟨.fat { fatEntry := ⟨2, 0⟩ }, ?_, ?_⟩⟩
  · rw [hfiles, (hmaps g hg).1]
    rfl
  · rw [hvol]
    exact threeBytes_has

end MappedFiles

end MikanOS
