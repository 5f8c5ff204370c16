import MikanOS.Usb.Ring

/-! # The event ring

`EventRing` of `ring.cpp`: the consumer side of the ring that the controller writes events to. The dequeue
pointer is a register of the controller, and whether the TRB there is new is told by its cycle bit
alone. -/

namespace MikanOS.Xhci

/-- `kMemoryPoolSize`. -/
def kMemoryPoolSize : Nat := 4096 * 32

/-- `Ceil`. -/
def ceil (value alignment : Nat) : Nat := (value + alignment - 1) / alignment * alignment

/-- `AllocMem` with the pool at `memoryPool`: the memory and the next `alloc_ptr`. -/
def AllocMem (memoryPool allocPtr size alignment boundary : Nat) : Option (Nat × Nat) :=
  let allocPtr := if 0 < alignment then ceil allocPtr alignment else allocPtr
  let allocPtr :=
    if 0 < boundary then
      let nextBoundary := ceil allocPtr boundary
      if nextBoundary < allocPtr + size then nextBoundary else allocPtr
    else allocPtr
  if memoryPool + kMemoryPoolSize < allocPtr + size then none else some (allocPtr, allocPtr + size)

/-- `ERDP_Bitmap`. -/
structure ERDP where
  dequeueErstSegmentIndex : BitVec 3
  eventHandlerBusy : Bool
  eventRingDequeuePointer : BitVec 60

namespace ERDP

variable (erdp : ERDP)

/-- `Pointer`. -/
def pointer : Nat := erdp.eventRingDequeuePointer.toNat * 16

/-- `SetPointer`. -/
def setPointer (value : Nat) : ERDP :=
  { erdp with eventRingDequeuePointer := BitVec.ofNat 60 (value / 16) }

/-- A write to the register: a 1 clears `event_handler_busy`, and a 0 leaves it. -/
def write (value : ERDP) : ERDP :=
  { value with eventHandlerBusy := erdp.eventHandlerBusy && !value.eventHandlerBusy }

theorem pointer_write_setPointer (erdp' : ERDP) {value : Nat} (h : value % 16 = 0)
    (hlt : value < 2 ^ 64) : (erdp'.write (erdp.setPointer value)).pointer = value := by
  simp only [pointer, write, setPointer, BitVec.toNat_ofNat]
  omega

end ERDP

/-- `EventRing` with its segment, the entry of the segment table and the register `ERDP`. -/
structure EventRing where
  slots : Nat → TRB
  ringSegmentBaseAddress : Nat
  ringSegmentSize : BitVec 16
  cycleBit : Bool
  erdp : ERDP

namespace EventRing

/-- `sizeof(TRB)`. -/
def trbSize : Nat := 16

variable (er : EventRing)

/-- `ReadDequeuePointer`. -/
def readDequeuePointer : Nat := er.erdp.pointer

/-- `WriteDequeuePointer`. -/
def writeDequeuePointer (p : Nat) : EventRing :=
  { er with erdp := er.erdp.write (er.erdp.setPointer p) }

/-- `Initialize`, with what the register holds before it. The memory that it gets is zeroed. -/
def init (memoryPool allocPtr bufSize : Nat) (erdp : ERDP) : Option EventRing := do
  let (buf, allocPtr) ← AllocMem memoryPool allocPtr (trbSize * bufSize) 64 (64 * 1024)
  let _ ← AllocMem memoryPool allocPtr 16 64 (64 * 1024)
  let er : EventRing := {
    slots := fun _ => ⟨0, 0, 0, 0⟩
    ringSegmentBaseAddress := buf
    ringSegmentSize := BitVec.ofNat 16 bufSize
    cycleBit := true
    erdp }
  some (er.writeDequeuePointer buf)

/-- The TRB at the dequeue pointer. -/
def front : TRB := er.slots ((er.readDequeuePointer - er.ringSegmentBaseAddress) / trbSize)

/-- `HasFront`. -/
def hasFront : Bool := er.front.cycleBit == er.cycleBit

/-- `Pop`. -/
def pop : EventRing :=
  let p := er.readDequeuePointer + trbSize
  let segmentBegin := er.ringSegmentBaseAddress
  let segmentEnd := segmentBegin + trbSize * er.ringSegmentSize.toNat
  if p = segmentEnd then { er with cycleBit := !er.cycleBit }.writeDequeuePointer segmentBegin
  else er.writeDequeuePointer p

end EventRing

/-- The event ring and the controller, which writes events by the rules of xHCI. `produced` and `handled`
are the TRBs that the controller has written and that `ProcessEvent` has handled, and `popped` counts the
calls of `Pop`. -/
structure EventSystem where
  er : EventRing
  enqueueIndex : Nat
  producerCycleState : Bool
  produced : List TRB
  handled : List TRB
  popped : Nat
  handling : Bool

namespace EventSystem

open RingSystem (lapCycle succ_lap lapCycle_succ lapCycle_add mod_ne_of_lt)

inductive Event where
  | produce (data : TRB)
  | front
  | pop

/-- One event. The controller has at most `N - 1` TRBs in the ring that are not popped; writing one sets
`event_handler_busy`. `ProcessEvent` handles the front if there is one and pops it afterwards. -/
def step (s : EventSystem) : Event → Option EventSystem
  | .produce data =>
    let size := s.er.ringSegmentSize.toNat
    if s.produced.length + 1 ≤ s.popped + (size - 1) then
      let trb := data.setCycle s.producerCycleState
      let last := s.enqueueIndex + 1 = size
      some { s with
        er := { s.er with
          slots := Function.update s.er.slots s.enqueueIndex trb
          erdp := { s.er.erdp with eventHandlerBusy := true } }
        enqueueIndex := if last then 0 else s.enqueueIndex + 1
        producerCycleState := if last then !s.producerCycleState else s.producerCycleState
        produced := s.produced ++ [trb] }
    else none
  | .front =>
    if !s.handling && s.er.hasFront then
      some { s with handled := s.handled ++ [s.er.front], handling := true }
    else none
  | .pop =>
    if s.handling then some { s with er := s.er.pop, popped := s.popped + 1, handling := false }
    else none

def system : Transition.System EventSystem Event := ⟨step⟩

/-- The controller starts at the first slot with the cycle state 1. -/
def init (er : EventRing) : EventSystem := ⟨er, 0, true, [], [], 0, false⟩

/-- The slots hold the last lap of events, and those never written have a clear cycle bit. The consumer
has popped all but at most `n - 1` of the events and has handled the front if it is about to pop it. -/
structure Inv (n buf : Nat) (s : EventSystem) : Prop where
  base : s.er.ringSegmentBaseAddress = buf
  size : s.er.ringSegmentSize.toNat = n
  enqueueIndex : s.enqueueIndex = s.produced.length % n
  producerCycleState : s.producerCycleState = lapCycle n s.produced.length
  slot : ∀ k (h : k < s.produced.length), s.produced.length ≤ k + n →
    s.er.slots (k % n) = s.produced[k] ∧ s.produced[k].cycleBit = lapCycle n k
  empty : ∀ j < n, s.produced.length ≤ j → (s.er.slots j).cycleBit = false
  pointer : s.er.readDequeuePointer = buf + 16 * (s.popped % n)
  cycleBit : s.er.cycleBit = lapCycle n s.popped
  popped : s.popped ≤ s.produced.length
  bounded : s.produced.length ≤ s.popped + (n - 1)
  handled : s.handled = s.produced.take (s.popped + s.handling.toNat)
  handling : s.handling = true → s.popped < s.produced.length

variable {n buf : Nat} {s s' : EventSystem} {er : EventRing} {data : TRB}

theorem ceil_dvd (value alignment : Nat) : alignment ∣ ceil value alignment := Nat.dvd_mul_left ..

theorem le_ceil (value : Nat) {alignment : Nat} (h : 0 < alignment) :
    value ≤ ceil value alignment := by
  have := Nat.div_add_mod (value + alignment - 1) alignment
  have := Nat.mod_lt (value + alignment - 1) h
  rw [ceil, Nat.mul_comm]
  omega

/-- What `AllocMem` gives lies in the pool, aligned as asked for. -/
theorem allocMem_spec {memoryPool allocPtr size p next : Nat}
    (h : AllocMem memoryPool allocPtr size 64 (64 * 1024) = some (p, next)) :
    p % 16 = 0 ∧ allocPtr ≤ p ∧ p + size ≤ memoryPool + kMemoryPoolSize := by
  rw [AllocMem] at h
  simp only [if_pos (show 0 < 64 by decide), if_pos (show 0 < 64 * 1024 by decide),
    Option.ite_none_left_eq_some, Option.some.injEq, Prod.mk.injEq] at h
  obtain ⟨hle, hp, -⟩ := h
  rw [hp] at hle
  have haligned := le_ceil allocPtr (show 0 < 64 by decide)
  refine ⟨?_, ?_, Nat.not_lt.mp hle⟩
  · apply Nat.mod_eq_zero_of_dvd
    rw [← hp]
    split
    · exact (show 16 ∣ 64 * 1024 by decide).trans (ceil_dvd ..)
    · exact (show 16 ∣ 64 by decide).trans (ceil_dvd ..)
  · rw [← hp]
    split
    · exact haligned.trans (le_ceil _ (by decide))
    · exact haligned

/-- A ring of `n` TRBs at `buf` in memory. -/
structure Placed (n buf : Nat) : Prop where
  two_le : 2 ≤ n
  lt : n < 2 ^ 16
  aligned : buf % 16 = 0
  last : buf + 16 * n ≤ 2 ^ 64

namespace Placed

theorem pos (hP : Placed n buf) : 0 < n := Nat.zero_lt_of_lt hP.two_le

/-- The register holds the address of every TRB of the ring. -/
theorem pointer_write (hP : Placed n buf) {j : Nat} (hj : j < n) (erdp erdp' : ERDP) :
    (erdp'.write (erdp.setPointer (buf + 16 * j))).pointer = buf + 16 * j := by
  have := hP.aligned
  have := hP.last
  exact erdp.pointer_write_setPointer erdp' (by omega) (by omega)

end Placed

/-- A successful `Initialize` places the ring. -/
theorem init_spec {memoryPool allocPtr : Nat} {erdp : ERDP} (hn : 2 ≤ n)
    (hpool : memoryPool + kMemoryPoolSize ≤ 2 ^ 64) (hptr : memoryPool ≤ allocPtr)
    (h : EventRing.init memoryPool allocPtr n erdp = some er) :
    ∃ buf, Placed n buf ∧ Inv n buf (EventSystem.init er) := by
  rw [EventRing.init] at h
  obtain ⟨⟨buf, next⟩, hbuf, h⟩ := Option.bind_eq_some_iff.mp h
  obtain ⟨-, -, h⟩ := Option.bind_eq_some_iff.mp h
  cases h
  obtain ⟨haligned, hle, hlast⟩ := allocMem_spec hbuf
  rw [EventRing.trbSize] at hlast
  have hlt : n < 2 ^ 16 := by
    rw [kMemoryPoolSize] at hlast
    omega
  have hP : Placed n buf := ⟨hn, hlt, haligned, hlast.trans hpool⟩
  refine ⟨buf, hP, ?_⟩
  exact {
    base := rfl
    size := by
      simp only [EventSystem.init, EventRing.writeDequeuePointer, BitVec.toNat_ofNat]
      exact Nat.mod_eq_of_lt hlt
    enqueueIndex := by simp [EventSystem.init]
    producerCycleState := by simp [EventSystem.init, lapCycle]
    slot := fun k h => absurd h (Nat.not_lt_zero k)
    empty := fun j _ _ => by
      simp only [EventSystem.init, EventRing.writeDequeuePointer, TRB.cycleBit]
      decide
    pointer := hP.pointer_write hP.pos erdp erdp
    cycleBit := by simp [EventSystem.init, EventRing.writeDequeuePointer, lapCycle]
    popped := Nat.le_refl 0
    bounded := Nat.zero_le _
    handled := rfl
    handling := fun h => absurd h Bool.false_ne_true }

namespace Inv

/-- The TRB at the dequeue pointer is the next event if there is one, and otherwise has the cycle bit of
the last lap. -/
theorem front_slot (H : Inv n buf s) (hn : 0 < n) :
    (∀ h : s.popped < s.produced.length, s.er.front = s.produced[s.popped] ∧
      s.er.front.cycleBit = s.er.cycleBit) ∧
    (s.popped = s.produced.length → s.er.front.cycleBit = !s.er.cycleBit) := by
  have hfront : s.er.front = s.er.slots (s.popped % n) := by
    rw [EventRing.front, H.pointer, H.base, Nat.add_sub_cancel_left, EventRing.trbSize,
      Nat.mul_div_cancel_left _ (by decide)]
  rw [hfront, H.cycleBit]
  have hbounded := H.bounded
  refine ⟨fun h => ?_, fun heq => ?_⟩
  · obtain ⟨hslot, hcycle⟩ := H.slot _ h (by omega)
    rw [hslot]
    exact ⟨rfl, hcycle⟩
  · rcases Nat.lt_or_ge s.popped n with hlt | hge
    · rw [Nat.mod_eq_of_lt hlt, H.empty _ hlt heq.ge]
      simp [lapCycle, Nat.div_eq_of_lt hlt]
    · obtain ⟨k, hk⟩ := Nat.exists_eq_add_of_le' hge
      obtain ⟨hslot, hcycle⟩ := H.slot k (by omega) (by omega)
      rw [hk, Nat.add_mod_right, hslot, hcycle, lapCycle_add hn, Bool.not_not]

theorem hasFront_iff (H : Inv n buf s) (hn : 0 < n) :
    s.er.hasFront = true ↔ s.popped < s.produced.length := by
  obtain ⟨hsome, hnone⟩ := H.front_slot hn
  rw [EventRing.hasFront, beq_iff_eq]
  rcases H.popped.lt_or_eq with h | h
  · exact ⟨fun _ => h, fun _ => (hsome h).2⟩
  · rw [hnone h]
    exact ⟨fun h => absurd h (Bool.not_ne_self _), fun hlt => absurd h hlt.ne⟩

theorem produce (H : Inv n buf s) (hn : 0 < n) (hs : s.step (.produce data) = some s') :
    Inv n buf s' := by
  have hsize := H.size
  rw [step, Option.ite_none_right_eq_some] at hs
  obtain ⟨hroom, hs⟩ := hs
  cases hs
  rw [hsize] at hroom
  have hlt : s.produced.length % n < n := Nat.mod_lt _ hn
  have hlen (t : TRB) : (s.produced ++ [t]).length = s.produced.length + 1 := by simp
  refine ⟨H.base, hsize, ?_, ?_, fun k h hk => ?_, fun j hj hle => ?_, H.pointer, H.cycleBit, ?_, ?_,
    ?_, ?_⟩
  · simp only [hlen, H.enqueueIndex, hsize]
    rcases succ_lap hn s.produced.length with ⟨hw, hmod, -⟩ | ⟨hw, hmod, -⟩
    · rw [if_neg hw.ne, hmod]
    · rw [if_pos hw, hmod]
  · simp only [hlen, H.enqueueIndex, H.producerCycleState, hsize]
    rcases succ_lap hn s.produced.length with ⟨hw, -, hdiv⟩ | ⟨hw, -, hdiv⟩
    · rw [if_neg hw.ne, lapCycle, lapCycle, hdiv]
    · rw [if_pos hw, lapCycle, lapCycle, hdiv, lapCycle_succ]
  · simp only [hlen] at h hk
    simp only [H.enqueueIndex, H.producerCycleState]
    rcases Nat.lt_or_ge k s.produced.length with hk' | hge
    · rw [Function.update_of_ne (mod_ne_of_lt hk' (by omega)), List.getElem_append_left hk']
      exact H.slot k hk' (by omega)
    · obtain rfl : k = s.produced.length := by omega
      rw [Function.update_self, List.getElem_concat_length rfl]
      exact ⟨rfl, TRB.cycleBit_setCycle ..⟩
  · simp only [hlen] at hle
    have hne : j ≠ s.enqueueIndex := by
      rw [H.enqueueIndex, Nat.mod_eq_of_lt (by omega)]
      omega
    exact (congrArg TRB.cycleBit (Function.update_of_ne hne ..)).trans (H.empty j hj (by omega))
  · exact H.popped.trans (by rw [hlen]; exact Nat.le_succ _)
  · rw [hlen]
    exact hroom
  · have hle : s.popped + s.handling.toNat ≤ s.produced.length := by
      cases hhandling : s.handling with
      | false => exact H.popped
      | true => exact H.handling hhandling
    rw [List.take_append_of_le_length hle]
    exact H.handled
  · intro hhandling
    rw [hlen]
    exact (H.handling hhandling).trans (Nat.lt_succ_self _)

theorem front (H : Inv n buf s) (hn : 0 < n) (hs : s.step .front = some s') : Inv n buf s' := by
  rw [step, Option.ite_none_right_eq_some] at hs
  obtain ⟨hguard, hs⟩ := hs
  cases hs
  rw [Bool.and_eq_true, Bool.not_eq_true'] at hguard
  obtain ⟨hidle, hfront⟩ := hguard
  have hlt := (H.hasFront_iff hn).mp hfront
  refine ⟨H.base, H.size, H.enqueueIndex, H.producerCycleState, H.slot, H.empty, H.pointer, H.cycleBit,
    H.popped, H.bounded, ?_, fun _ => hlt⟩
  have hhandled := H.handled
  rw [hidle] at hhandled
  simp only [hhandled, ((H.front_slot hn).1 hlt).1, Bool.toNat_false, Bool.toNat_true, Nat.add_zero,
    List.take_add_one, List.getElem?_eq_getElem hlt, Option.toList_some]

theorem pop (H : Inv n buf s) (hP : Placed n buf) (hs : s.step .pop = some s') : Inv n buf s' := by
  rw [step, Option.ite_none_right_eq_some] at hs
  obtain ⟨hhandling, hs⟩ := hs
  cases hs
  have hlt := H.handling hhandling
  have hn := hP.pos
  have hhandled := H.handled
  rw [hhandling, Bool.toNat_true] at hhandled
  have hbounded := H.bounded
  have hpop : s.er.pop = { s.er with
      cycleBit := lapCycle n (s.popped + 1)
      erdp := s.er.erdp.write (s.er.erdp.setPointer (buf + 16 * ((s.popped + 1) % n))) } := by
    rw [EventRing.pop]
    simp only [H.pointer, H.base, H.size, EventRing.trbSize, EventRing.writeDequeuePointer]
    rcases succ_lap hn s.popped with ⟨hw, hmod, hdiv⟩ | ⟨hw, hmod, hdiv⟩
    · rw [if_neg (by omega), hmod, Nat.mul_add, ← Nat.add_assoc, lapCycle, hdiv, ← lapCycle,
        ← H.cycleBit]
    · rw [if_pos (by omega), hmod, lapCycle, hdiv, lapCycle_succ, H.cycleBit, lapCycle]
      rfl
  have hbounded' : s.produced.length ≤ s.popped + 1 + (n - 1) := by omega
  rw [hpop]
  refine ⟨H.base, H.size, H.enqueueIndex, H.producerCycleState, H.slot, H.empty,
    hP.pointer_write (Nat.mod_lt _ hn) .., rfl, hlt, hbounded', hhandled,
    fun h => absurd h Bool.false_ne_true⟩

theorem step (H : Inv n buf s) (hP : Placed n buf) {e : Event} (hs : s.step e = some s') :
    Inv n buf s' := by
  cases e with
  | produce data => exact H.produce hP.pos hs
  | front => exact H.front hP.pos hs
  | pop => exact H.pop hP hs

end Inv

/-- Events are handled once each, in the order the controller writes them: `handled` is a prefix of
`produced`, at most one event ahead of `Pop`, and `HasFront` tells whether an event is left. -/
theorem handled_in_order {memoryPool allocPtr : Nat} {erdp : ERDP} {es : List Event} (hn : 2 ≤ n)
    (hpool : memoryPool + kMemoryPoolSize ≤ 2 ^ 64) (hptr : memoryPool ≤ allocPtr)
    (hinit : EventRing.init memoryPool allocPtr n erdp = some er)
    (hrun : system.Run (init er) es s) :
    s.handled = s.produced.take s.handled.length ∧
      s.handled.length = s.popped + s.handling.toNat ∧
      s.handled.length ≤ s.produced.length ∧
      (s.er.hasFront = false ↔ s.popped = s.produced.length) := by
  obtain ⟨buf, hP, H0⟩ := init_spec hn hpool hptr hinit
  have H : Inv n buf s := hrun.invariant (I := Inv n buf) (fun _ _ _ H hs => H.step hP hs) H0
  have hle : s.popped + s.handling.toNat ≤ s.produced.length := by
    cases hhandling : s.handling with
    | false => exact H.popped
    | true => exact H.handling hhandling
  have hlen : s.handled.length = s.popped + s.handling.toNat := by
    rw [H.handled, List.length_take, Nat.min_eq_left hle]
  refine ⟨?_, hlen, hlen ▸ hle, ?_⟩
  · rw [hlen]
    exact H.handled
  · rw [← Bool.not_eq_true, H.hasFront_iff hP.pos, Nat.not_lt]
    exact ⟨H.popped.antisymm, Eq.ge⟩

/-- A ring of two at the start of the pool. -/
def ofTwo : EventRing := (EventRing.init 4096 4096 2 ⟨0, false, 0⟩).get rfl

/-- Two events in it, and a third one in the next lap. -/
def aroundTwo : List Event := [
  .produce ⟨1, 0, 0, 0x8000⟩, .front, .pop, .produce ⟨2, 0, 0, 0x8000⟩, .front, .pop,
  .produce ⟨3, 0, 0, 0x8000⟩, .front]

theorem handled_in_order_aroundTwo :
    ∃ s, system.exec (init ofTwo) aroundTwo = some s ∧ s.handled.length = 3 ∧
      s.handled = s.produced.take s.handled.length := by
  refine ⟨_, rfl, by decide +kernel, ?_⟩
  have hrun := Transition.System.run_of_exec
    (rfl : system.exec (init ofTwo) aroundTwo = some _)
  exact (handled_in_order (by decide) (by decide) (by decide) (Option.some_get _).symm hrun).1

end EventSystem

end MikanOS.Xhci
