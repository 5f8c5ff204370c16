import MikanOS.Usb.EventRing

/-! # The memory pool of the USB driver

`AllocMem` of `usb/memory.cpp` with the arithmetic of its words, and what sequences of calls get. A call that
fails has moved `alloc_ptr` to its alignment and boundary all the same. -/

namespace MikanOS.Usb

open Xhci (kMemoryPoolSize ceil)
open Xhci.EventSystem (le_ceil ceil_dvd)

/-- `Ceil` of an address. -/
def Ceil (value : BitVec 64) (alignment : BitVec 32) : BitVec 64 :=
  (value + alignment.setWidth 64 - 1) &&& ~~~(alignment - 1).setWidth 64

/-- `alloc_ptr` after the first rounding. -/
def alignedPtr (allocPtr : BitVec 64) (alignment : BitVec 32) : BitVec 64 :=
  if 0 < alignment then Ceil allocPtr alignment else allocPtr

/-- `alloc_ptr` after the second one. -/
def placedPtr (allocPtr size : BitVec 64) (boundary : BitVec 32) : BitVec 64 :=
  if 0 < boundary then
    let nextBoundary := Ceil allocPtr boundary
    if nextBoundary < allocPtr + size then nextBoundary else allocPtr
  else allocPtr

/-- `AllocMem` with the pool at `memoryPool`: the result, of which `none` is the null pointer, and the next
`alloc_ptr`. -/
def AllocMem (memoryPool allocPtr size : BitVec 64) (alignment boundary : BitVec 32) :
    Option (BitVec 64) × BitVec 64 :=
  let allocPtr := placedPtr (alignedPtr allocPtr alignment) size boundary
  if memoryPool + BitVec.ofNat 64 kMemoryPoolSize < allocPtr + size then (none, allocPtr)
  else (some allocPtr, allocPtr + size)

/-- The arguments of a call. -/
structure AllocCall where
  size : BitVec 64
  alignment : BitVec 32
  boundary : BitVec 32

/-- Memory that a call has got, and the address of its first byte. -/
structure Block where
  call : AllocCall
  p : BitVec 64

namespace Block

variable (b : Block)

/-- The bytes of a block. -/
def bytes : Set Nat := Set.Ico b.p.toNat (b.p.toNat + b.call.size.toNat)

end Block

/-- The blocks of a sequence of calls, the first of which finds `allocPtr`. -/
def allocBlocks (memoryPool allocPtr : BitVec 64) : List AllocCall → List Block
  | [] => []
  | c :: calls =>
    let (p, next) := AllocMem memoryPool allocPtr c.size c.alignment c.boundary
    (p.map (Block.mk c)).toList ++ allocBlocks memoryPool next calls

/-- 0 or a power of two. -/
def PowerOrZero (n : BitVec 32) : Prop := n = 0 ∨ ∃ k, n.toNat = 2 ^ k

/-- What the callers promise. -/
structure AllocCall.Valid (c : AllocCall) : Prop where
  size : 1 ≤ c.size.toNat
  alignment : PowerOrZero c.alignment
  boundary : PowerOrZero c.boundary
  le : c.alignment ≠ 0 → c.boundary ≠ 0 → c.alignment.toNat ≤ c.boundary.toNat

/-- None of the sums of a call is too large for a word. -/
structure AllocCall.NoWrap (c : AllocCall) (allocPtr : BitVec 64) : Prop where
  alignment : allocPtr.toNat + c.alignment.toNat ≤ 2 ^ 64
  boundary : (alignedPtr allocPtr c.alignment).toNat + c.boundary.toNat ≤ 2 ^ 64
  crossing : (alignedPtr allocPtr c.alignment).toNat + c.size.toNat < 2 ^ 64
  block : (placedPtr (alignedPtr allocPtr c.alignment) c.size c.boundary).toNat + c.size.toNat < 2 ^ 64

/-- Each call of a sequence is as promised, and where it comes nothing wraps around. -/
def Admissible (memoryPool allocPtr : BitVec 64) : List AllocCall → Prop
  | [] => True
  | c :: calls => c.Valid ∧ c.NoWrap allocPtr ∧
      Admissible memoryPool (AllocMem memoryPool allocPtr c.size c.alignment c.boundary).2 calls

variable {memoryPool allocPtr value size : BitVec 64} {alignment boundary : BitVec 32} {c : AllocCall}
  {calls : List AllocCall} {p q : Nat}

/-! ## Rounding up -/

/-- Clearing the low bits rounds down. -/
theorem toNat_and_not_mask {k : Nat} (hk : k < 32) (halignment : alignment.toNat = 2 ^ k) (value : BitVec 64) :
    (value &&& ~~~(alignment - 1).setWidth 64).toNat = value.toNat / 2 ^ k * 2 ^ k := by
  have hpow : 2 ^ k < 2 ^ 32 := Nat.pow_lt_pow_right (by decide) hk
  have hpos := Nat.two_pow_pos k
  have hmask : ((alignment - 1).setWidth 64).toNat = 2 ^ k - 1 := by
    rw [BitVec.toNat_setWidth, BitVec.toNat_sub_of_le (by rw [BitVec.le_def, halignment]; exact hpos),
      halignment, Nat.mod_eq_of_lt (by omega)]
    rfl
  have hsub : 2 ^ 64 - 1 - (2 ^ k - 1) = 2 ^ 64 - (2 ^ k - 1 + 1) := by omega
  rw [BitVec.toNat_and, BitVec.toNat_not, hmask, hsub]
  apply Nat.eq_of_testBit_eq
  intro i
  rw [Nat.testBit_and, Nat.testBit_two_pow_sub_succ (by omega), Nat.testBit_two_pow_sub_one,
    Nat.testBit_mul_two_pow, Nat.testBit_div_two_pow]
  by_cases hi : i < k
  · simp [hi]
  · have hge : k ≤ i := Nat.le_of_not_lt hi
    rw [Nat.sub_add_cancel hge]
    by_cases h64 : i < 64
    · simp [hi, hge, h64]
    · rw [Nat.testBit_lt_two_pow (value.isLt.trans_le (Nat.pow_le_pow_right (by decide) (Nat.le_of_not_lt h64)))]
      simp

theorem toNat_Ceil (h : alignment ≠ 0) (hpower : PowerOrZero alignment)
    (hwrap : value.toNat + alignment.toNat ≤ 2 ^ 64) :
    (Ceil value alignment).toNat = ceil value.toNat alignment.toNat := by
  obtain ⟨k, halignment⟩ := hpower.resolve_left h
  have hk : k < 32 := by
    by_contra hge
    have hpow : 2 ^ 32 ≤ 2 ^ k := Nat.pow_le_pow_right (by decide) (Nat.le_of_not_lt hge)
    have hlt := alignment.isLt
    omega
  have hpos := Nat.two_pow_pos k
  have hlt := alignment.isLt
  have hsum : (value + alignment.setWidth 64 - 1).toNat = value.toNat + alignment.toNat - 1 := by
    have hone : (1 : BitVec 64).toNat = 1 := rfl
    rw [BitVec.toNat_sub, BitVec.toNat_add, BitVec.toNat_setWidth, hone]
    omega
  rw [Ceil, toNat_and_not_mask hk halignment, hsum, ceil, halignment]

/-- The least multiple that is not below. -/
theorem ceil_le {a : Nat} (ha : 0 < a) (hp : p ≤ q) (hq : a ∣ q) : ceil p a ≤ q := by
  obtain ⟨n, rfl⟩ := hq
  rw [ceil, Nat.mul_comm]
  refine Nat.mul_le_mul_left a (Nat.le_of_lt_succ ((Nat.div_lt_iff_lt_mul ha).mpr ?_))
  rw [Nat.succ_mul, Nat.mul_comm n]
  omega

/-! ## One call -/

theorem pos_iff_ne_zero (n : BitVec 32) : 0 < n ↔ n ≠ 0 := by bv_omega

/-- The first rounding goes up to a multiple of the alignment. -/
theorem alignedPtr_spec (hc : c.Valid) (hwrap : c.NoWrap allocPtr) :
    allocPtr.toNat ≤ (alignedPtr allocPtr c.alignment).toNat ∧
      (c.alignment ≠ 0 → c.alignment.toNat ∣ (alignedPtr allocPtr c.alignment).toNat) := by
  rw [alignedPtr]
  split
  · next hpos =>
    have hne := (pos_iff_ne_zero _).mp hpos
    rw [toNat_Ceil hne hc.alignment hwrap.alignment]
    exact ⟨le_ceil _ (BitVec.lt_def.mp hpos), fun _ => ceil_dvd ..⟩
  · next hpos => exact ⟨le_rfl, fun hne => absurd ((pos_iff_ne_zero _).mpr hne) hpos⟩

/-- Where a block may begin: aligned, and without a boundary inside the block if it is not too large. -/
structure AllocCall.Placed (c : AllocCall) (p : BitVec 64) : Prop where
  aligned : c.alignment ≠ 0 → c.alignment.toNat ∣ p.toNat
  inside : c.boundary ≠ 0 → c.size.toNat ≤ c.boundary.toNat →
    ∀ q, c.boundary.toNat ∣ q → ¬(p.toNat < q ∧ q < p.toNat + c.size.toNat)

theorem dvd_of_powerOrZero (halignment : PowerOrZero alignment) (hboundary : PowerOrZero boundary)
    (ha : alignment ≠ 0) (hb : boundary ≠ 0) (hle : alignment.toNat ≤ boundary.toNat) :
    alignment.toNat ∣ boundary.toNat := by
  obtain ⟨k, hk⟩ := halignment.resolve_left ha
  obtain ⟨l, hl⟩ := hboundary.resolve_left hb
  rw [hk, hl] at hle ⊢
  exact Nat.pow_dvd_pow 2 ((Nat.pow_le_pow_iff_right (by decide)).mp hle)

/-- The second rounding keeps the alignment, and what begins there does not cross a boundary. -/
theorem placedPtr_spec (hc : c.Valid) (hwrap : c.NoWrap allocPtr) :
    (alignedPtr allocPtr c.alignment).toNat ≤
        (placedPtr (alignedPtr allocPtr c.alignment) c.size c.boundary).toNat ∧
      c.Placed (placedPtr (alignedPtr allocPtr c.alignment) c.size c.boundary) := by
  have hdvd := (alignedPtr_spec hc hwrap).2
  have hboundaryWrap := hwrap.boundary
  have hcrossing := hwrap.crossing
  have hsize := hc.size
  generalize alignedPtr allocPtr c.alignment = aligned at *
  rw [placedPtr]
  split
  · next hpos =>
    have hne := (pos_iff_ne_zero _).mp hpos
    have hnext := toNat_Ceil hne hc.boundary hboundaryWrap
    have hle := le_ceil aligned.toNat (BitVec.lt_def.mp hpos)
    dsimp only
    split
    · next hmove =>
      refine ⟨hnext ▸ hle, fun ha => ?_, fun _ hfits q hq hcross => ?_⟩
      · rw [hnext]
        exact (dvd_of_powerOrZero hc.alignment hc.boundary ha hne (hc.le ha hne)).trans (ceil_dvd ..)
      · -- the next multiple is a whole boundary away
        have hnextDvd : c.boundary.toNat ∣ (Ceil aligned c.boundary).toNat := hnext ▸ ceil_dvd ..
        have hgap := Nat.le_of_dvd (Nat.sub_pos_of_lt hcross.1) (Nat.dvd_sub hq hnextDvd)
        omega
    · next hstay =>
      refine ⟨le_rfl, hdvd, fun _ _ q hq hcross => ?_⟩
      have hleast := ceil_le (BitVec.lt_def.mp hpos) hcross.1.le hq
      rw [BitVec.lt_def, hnext, BitVec.toNat_add, Nat.mod_eq_of_lt hcrossing] at hstay
      omega
  · next hpos => exact ⟨le_rfl, hdvd, fun hb => absurd ((pos_iff_ne_zero _).mpr hb) hpos⟩

/-- What a block of the pool at `memoryPool` is. -/
structure Block.Good (b : Block) (memoryPool : BitVec 64) : Prop where
  low : memoryPool.toNat ≤ b.p.toNat
  high : b.p.toNat + b.call.size.toNat ≤ memoryPool.toNat + kMemoryPoolSize
  placed : b.call.Placed b.p

/-- The test that there is not enough room. -/
theorem pool_lt_iff {placed : BitVec 64} (hpool : memoryPool.toNat + kMemoryPoolSize < 2 ^ 64)
    (hblock : placed.toNat + size.toNat < 2 ^ 64) :
    memoryPool + BitVec.ofNat 64 kMemoryPoolSize < placed + size ↔
      memoryPool.toNat + kMemoryPoolSize < placed.toNat + size.toNat := by
  have hsize : kMemoryPoolSize % 2 ^ 64 = kMemoryPoolSize := by decide
  rw [BitVec.lt_def, BitVec.toNat_add, BitVec.toNat_ofNat, hsize, Nat.mod_eq_of_lt hpool, BitVec.toNat_add,
    Nat.mod_eq_of_lt hblock]

/-- A call moves `alloc_ptr` up, and over its block if it gets one. -/
theorem AllocMem_spec (hpool : memoryPool.toNat + kMemoryPoolSize < 2 ^ 64)
    (hlow : memoryPool.toNat ≤ allocPtr.toNat) (hc : c.Valid) (hwrap : c.NoWrap allocPtr)
    {r : Option (BitVec 64)} {next : BitVec 64}
    (h : AllocMem memoryPool allocPtr c.size c.alignment c.boundary = (r, next)) :
    allocPtr.toNat ≤ next.toNat ∧ ∀ p, r = some p → allocPtr.toNat ≤ p.toNat ∧
      p.toNat + c.size.toNat = next.toNat ∧ (Block.mk c p).Good memoryPool := by
  have haligned := (alignedPtr_spec hc hwrap).1
  obtain ⟨hge, hplaced⟩ := placedPtr_spec hc hwrap
  have hblock := hwrap.block
  rw [AllocMem] at h
  generalize placedPtr (alignedPtr allocPtr c.alignment) c.size c.boundary = placed at *
  have hnext : (placed + c.size).toNat = placed.toNat + c.size.toNat := by
    rw [BitVec.toNat_add, Nat.mod_eq_of_lt hblock]
  have hle := haligned.trans hge
  split at h
  · obtain ⟨rfl, rfl⟩ := Prod.mk.inj h
    exact ⟨hle, fun p hp => by cases hp⟩
  · next hroom =>
    obtain ⟨rfl, rfl⟩ := Prod.mk.inj h
    rw [pool_lt_iff hpool hblock, Nat.not_lt] at hroom
    refine ⟨hnext ▸ hle.trans (Nat.le_add_right _ _), fun p hp => ?_⟩
    obtain rfl := Option.some.inj hp
    exact ⟨hle, hnext.symm, hlow.trans hle, hroom, hplaced⟩

theorem toNat_alignedPtr (hc : c.Valid) (hwrap : c.NoWrap allocPtr) :
    (alignedPtr allocPtr c.alignment).toNat =
      if 0 < c.alignment.toNat then ceil allocPtr.toNat c.alignment.toNat else allocPtr.toNat := by
  rw [alignedPtr, apply_ite BitVec.toNat]
  refine ite_congr (propext BitVec.lt_def) (fun hpos => ?_) fun _ => rfl
  exact toNat_Ceil ((pos_iff_ne_zero _).mp (BitVec.lt_def.mpr hpos)) hc.alignment hwrap.alignment

theorem toNat_placedPtr (hc : c.Valid) (hwrap : c.NoWrap allocPtr) :
    (placedPtr (alignedPtr allocPtr c.alignment) c.size c.boundary).toNat =
      if 0 < c.boundary.toNat then
        if ceil (alignedPtr allocPtr c.alignment).toNat c.boundary.toNat <
            (alignedPtr allocPtr c.alignment).toNat + c.size.toNat then
          ceil (alignedPtr allocPtr c.alignment).toNat c.boundary.toNat
        else (alignedPtr allocPtr c.alignment).toNat
      else (alignedPtr allocPtr c.alignment).toNat := by
  have hboundaryWrap := hwrap.boundary
  have hcrossing := hwrap.crossing
  generalize alignedPtr allocPtr c.alignment = aligned at *
  rw [placedPtr, apply_ite BitVec.toNat]
  refine ite_congr (propext BitVec.lt_def) (fun hpos => ?_) fun _ => rfl
  have hnext := toNat_Ceil ((pos_iff_ne_zero _).mp (BitVec.lt_def.mpr hpos)) hc.boundary hboundaryWrap
  dsimp only
  rw [apply_ite BitVec.toNat, hnext]
  refine if_congr ?_ rfl rfl
  rw [BitVec.lt_def, hnext, BitVec.toNat_add, Nat.mod_eq_of_lt hcrossing]

/-- On addresses without a wrap, the words of `AllocMem` are the numbers of the event ring's `AllocMem`. -/
theorem toNat_AllocMem (hpool : memoryPool.toNat + kMemoryPoolSize < 2 ^ 64) (hc : c.Valid)
    (hwrap : c.NoWrap allocPtr) :
    Xhci.AllocMem memoryPool.toNat allocPtr.toNat c.size.toNat c.alignment.toNat c.boundary.toNat =
      (AllocMem memoryPool allocPtr c.size c.alignment c.boundary).1.map fun p =>
        (p.toNat, p.toNat + c.size.toNat) := by
  simp only [Xhci.AllocMem, AllocMem]
  rw [← toNat_alignedPtr hc hwrap, ← toNat_placedPtr hc hwrap]
  have hroom := pool_lt_iff hpool hwrap.block
  split
  · next hfull => rw [if_pos (hroom.mpr hfull), Option.map_none]
  · next hfits => rw [if_neg (mt hroom.mp hfits), Option.map_some]

/-! ## Sequences of calls -/

/-- The blocks lie above `alloc_ptr`, one behind the other. -/
theorem allocBlocks_spec (hpool : memoryPool.toNat + kMemoryPoolSize < 2 ^ 64)
    (hlow : memoryPool.toNat ≤ allocPtr.toNat) (hcalls : Admissible memoryPool allocPtr calls) :
    (∀ b ∈ allocBlocks memoryPool allocPtr calls, allocPtr.toNat ≤ b.p.toNat ∧ b.Good memoryPool) ∧
      (allocBlocks memoryPool allocPtr calls).Pairwise fun b b' =>
        b.p.toNat + b.call.size.toNat ≤ b'.p.toNat := by
  induction calls generalizing allocPtr with
  | nil => exact ⟨fun b hb => absurd hb List.not_mem_nil, List.Pairwise.nil⟩
  | cons c calls ih =>
    obtain ⟨hc, hwrap, hrest⟩ := hcalls
    rw [allocBlocks]
    generalize hresult : AllocMem memoryPool allocPtr c.size c.alignment c.boundary = result at *
    obtain ⟨r, next⟩ := result
    obtain ⟨hle, hblock⟩ := AllocMem_spec hpool hlow hc hwrap hresult
    obtain ⟨hgood, hpairwise⟩ := ih (hlow.trans hle) hrest
    have hlater : ∀ b ∈ allocBlocks memoryPool next calls, allocPtr.toNat ≤ b.p.toNat ∧ b.Good memoryPool :=
      fun b hb => ⟨hle.trans (hgood b hb).1, (hgood b hb).2⟩
    cases r with
    | none => exact ⟨hlater, hpairwise⟩
    | some p =>
      obtain ⟨hp, hend, hnew⟩ := hblock p rfl
      constructor
      · intro b hb
        rcases List.mem_cons.mp hb with rfl | hb
        · exact ⟨hp, hnew⟩
        · exact hlater b hb
      · exact List.pairwise_cons.mpr ⟨fun b hb => hend.trans_le (hgood b hb).1, hpairwise⟩

/-- Blocks of any sequence of calls lie in the pool, begin at a multiple of the alignment, do not cross a
boundary that is as large as they are, and have no byte in common. -/
theorem allocBlocks_good (hpool : memoryPool.toNat + kMemoryPoolSize < 2 ^ 64)
    (hcalls : Admissible memoryPool memoryPool calls) :
    (∀ b ∈ allocBlocks memoryPool memoryPool calls, b.Good memoryPool) ∧
      (allocBlocks memoryPool memoryPool calls).Pairwise fun b b' => Disjoint b.bytes b'.bytes := by
  obtain ⟨hgood, hpairwise⟩ := allocBlocks_spec hpool le_rfl hcalls
  refine ⟨fun b hb => (hgood b hb).2, hpairwise.imp fun hle => ?_⟩
  exact Set.disjoint_left.mpr fun q hq hq' => absurd (hq.2.trans_le hle) (Nat.not_lt.mpr hq'.1)

/-- A ring of 1024 bytes after 100 bytes, and a block for which there is no room. -/
theorem allocBlocks_good_three :
    (∀ b ∈ allocBlocks 0x200000 0x200000 [⟨100, 0, 0⟩, ⟨1024, 64, 4096⟩, ⟨0x20000, 64, 4096⟩],
      b.Good 0x200000) ∧
    (allocBlocks 0x200000 0x200000 [⟨100, 0, 0⟩, ⟨1024, 64, 4096⟩, ⟨0x20000, 64, 4096⟩]).Pairwise
      fun b b' => Disjoint b.bytes b'.bytes :=
  allocBlocks_good (by decide)
    ⟨⟨by decide, .inl rfl, .inl rfl, by decide⟩, ⟨by decide, by decide, by decide, by decide⟩,
      ⟨by decide, .inr ⟨6, rfl⟩, .inr ⟨12, rfl⟩, by decide⟩, ⟨by decide, by decide, by decide, by decide⟩,
      ⟨by decide, .inr ⟨6, rfl⟩, .inr ⟨12, rfl⟩, by decide⟩, ⟨by decide, by decide, by decide, by decide⟩, trivial⟩

end MikanOS.Usb
