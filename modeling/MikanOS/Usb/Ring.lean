import MikanOS.Library.Transition

/-! # The command and transfer rings

`ring.cpp`: the producer side of an xHCI ring. Producer and consumer tell the entries of this lap from
those of the last one by the cycle bits; the last slot of the buffer holds a link back to the first
one. -/

namespace MikanOS.Xhci

/-- A TRB of any type: its four words. -/
structure TRB where
  data0 : BitVec 32
  data1 : BitVec 32
  data2 : BitVec 32
  data3 : BitVec 32
  deriving DecidableEq

namespace TRB

variable (t : TRB)

def cycleBit : Bool := t.data3.getLsbD 0
def toggleCycle : Bool := t.data3.getLsbD 1
def trbType : Nat := (t.data3.extractLsb' 10 6).toNat

/-- `LinkTRB::Pointer`: the address whose upper 60 bits are in the first two words. -/
def pointer : Nat := (t.data1.toNat * 2 ^ 32 + t.data0.toNat) / 16 * 16

/-- The TRB as `CopyToLast` writes it. -/
def setCycle (cycleBit : Bool) : TRB :=
  { t with data3 := (t.data3 &&& 0xfffffffe#32) ||| (if cycleBit then 1#32 else 0#32) }

theorem getLsbD_setCycle (b : Bool) {i : Nat} (hi : i < 32) :
    (t.setCycle b).data3.getLsbD i = if i = 0 then b else t.data3.getLsbD i := by
  have hmask : (0xfffffffe#32).getLsbD i = !decide (i = 0) := by
    rw [show 0xfffffffe#32 = ~~~1#32 from rfl, BitVec.getLsbD_not, BitVec.getLsbD_one]
    simp [hi]
  rw [setCycle, BitVec.getLsbD_or, BitVec.getLsbD_and, hmask]
  cases b <;> by_cases h : i = 0 <;> simp [h, BitVec.getLsbD_one]

@[simp] theorem cycleBit_setCycle (b : Bool) : (t.setCycle b).cycleBit = b :=
  t.getLsbD_setCycle b (by decide)

@[simp] theorem toggleCycle_setCycle (b : Bool) : (t.setCycle b).toggleCycle = t.toggleCycle :=
  t.getLsbD_setCycle b (by decide)

@[simp] theorem trbType_setCycle (b : Bool) : (t.setCycle b).trbType = t.trbType := by
  rw [trbType, trbType]
  congr 1
  apply BitVec.eq_of_getLsbD_eq
  intro i hi
  rw [BitVec.getLsbD_extractLsb', BitVec.getLsbD_extractLsb', getLsbD_setCycle _ _ (by omega),
    if_neg (by omega)]

@[simp] theorem pointer_setCycle (b : Bool) : (t.setCycle b).pointer = t.pointer := rfl

@[simp] theorem setCycle_setCycle (b c : Bool) : (t.setCycle b).setCycle c = t.setCycle c := by
  have h : ((t.setCycle b).setCycle c).data3 = (t.setCycle c).data3 := by
    apply BitVec.eq_of_getLsbD_eq
    intro i hi
    rw [getLsbD_setCycle _ _ hi, getLsbD_setCycle _ _ hi, getLsbD_setCycle _ _ hi]
    split <;> rfl
  simp only [setCycle] at h ⊢
  rw [h]

end TRB

/-- `LinkTRB` with `toggle_cycle` set, as `Push` builds it. -/
def LinkTRB (ringSegmentPointer : Nat) : TRB where
  data0 := BitVec.ofNat 32 (ringSegmentPointer / 16 * 16)
  data1 := BitVec.ofNat 32 (ringSegmentPointer / 2 ^ 32)
  data2 := 0
  data3 := 0x1802 -- `trb_type` 6 at bit 10, `toggle_cycle` at bit 1

def LinkTRB.Type : Nat := 6

@[simp] theorem trbType_linkTRB (p : Nat) : (LinkTRB p).trbType = LinkTRB.Type := by
  simp only [TRB.trbType, LinkTRB]
  decide

@[simp] theorem toggleCycle_linkTRB (p : Nat) : (LinkTRB p).toggleCycle = true := by
  simp only [TRB.toggleCycle, LinkTRB]
  decide

theorem pointer_linkTRB {p : Nat} (hp : p % 16 = 0) (hlt : p < 2 ^ 64) :
    (LinkTRB p).pointer = p := by
  simp only [TRB.pointer, LinkTRB, BitVec.toNat_ofNat]
  omega

/-- `Ring`. The buffer is at the address `buf`. -/
structure Ring where
  buf : Nat
  bufSize : Nat
  slots : Nat → TRB
  cycleBit : Bool
  writeIndex : Nat

namespace Ring

/-- `Initialize`, with the zeroed buffer that it got at `buf`. -/
def init (buf bufSize : Nat) : Ring where
  buf
  bufSize
  slots := fun _ => ⟨0, 0, 0, 0⟩
  cycleBit := true
  writeIndex := 0

variable (r : Ring)

def copyToLast (data : TRB) : Ring :=
  { r with slots := Function.update r.slots r.writeIndex (data.setCycle r.cycleBit) }

def push (data : TRB) : Ring :=
  let r := r.copyToLast data
  let r := { r with writeIndex := r.writeIndex + 1 }
  if r.writeIndex = r.bufSize - 1 then
    let r := r.copyToLast (LinkTRB r.buf)
    { r with writeIndex := 0, cycleBit := !r.cycleBit }
  else r

end Ring

/-- A ring with a consumer by the rules of xHCI. `pushed` and `seen` are what was given to `Push` and
what the consumer has read. -/
structure RingSystem where
  ring : Ring
  dequeuePointer : Nat
  cycleState : Bool
  pushed : List TRB
  seen : List TRB

namespace RingSystem

inductive Event where
  | push (data : TRB)
  | consume
  | followLink

/-- The TRB at the dequeue pointer. -/
def front (s : RingSystem) : TRB := s.ring.slots ((s.dequeuePointer - s.ring.buf) / 16)

/-- One event. The drivers push no link TRBs, and no more than `bufSize - 2` TRBs may be waiting. -/
def step (s : RingSystem) : Event → Option RingSystem
  | .push data =>
    if data.trbType ≠ LinkTRB.Type ∧ s.pushed.length + 1 ≤ s.seen.length + (s.ring.bufSize - 2) then
      some { s with ring := s.ring.push data, pushed := s.pushed ++ [data] }
    else none
  | .consume =>
    if s.front.cycleBit = s.cycleState ∧ s.front.trbType ≠ LinkTRB.Type then
      some { s with dequeuePointer := s.dequeuePointer + 16, seen := s.seen ++ [s.front] }
    else none
  | .followLink =>
    if s.front.cycleBit = s.cycleState ∧ s.front.trbType = LinkTRB.Type then
      some { s with
        dequeuePointer := s.front.pointer
        cycleState := if s.front.toggleCycle then !s.cycleState else s.cycleState }
    else none

def system : Transition.System RingSystem Event := ⟨step⟩

/-- A new ring, given to the controller with the cycle state 1. -/
def init (buf bufSize : Nat) : RingSystem where
  ring := .init buf bufSize
  dequeuePointer := buf
  cycleState := true
  pushed := []
  seen := []

/-! ## The invariant -/

/-- The cycle bit of the lap that the TRB with number `k` is in, `n` TRBs to a lap. -/
def lapCycle (n k : Nat) : Bool := k / n % 2 = 0

/-- The slots hold the last lap of TRBs under the cycle bits of their laps, the slots never written
have a clear cycle bit, and the link has the cycle bit of the last complete lap. -/
structure RingInv (n buf : Nat) (pushed : List TRB) (r : Ring) : Prop where
  buf_eq : r.buf = buf
  bufSize : r.bufSize = n + 1
  writeIndex : r.writeIndex = pushed.length % n
  cycleBit : r.cycleBit = lapCycle n pushed.length
  slot : ∀ k (h : k < pushed.length), pushed.length ≤ k + n →
    r.slots (k % n) = pushed[k].setCycle (lapCycle n k)
  empty : ∀ j < n, pushed.length ≤ j → (r.slots j).cycleBit = false
  link : n ≤ pushed.length → r.slots n = (LinkTRB buf).setCycle (!lapCycle n pushed.length)

/-- The consumer is at the slot of the next TRB, or still at the link before it. -/
structure Inv (n buf : Nat) (s : RingSystem) : Prop where
  ring : RingInv n buf s.pushed s.ring
  noLink : ∀ t ∈ s.pushed, t.trbType ≠ LinkTRB.Type
  seen : s.seen.map (·.setCycle false) = (s.pushed.take s.seen.length).map (·.setCycle false)
  le : s.seen.length ≤ s.pushed.length
  bounded : s.pushed.length ≤ s.seen.length + (n - 1)
  consumer : (s.dequeuePointer = buf + 16 * (s.seen.length % n) ∧
      s.cycleState = lapCycle n s.seen.length) ∨
    (s.dequeuePointer = buf + 16 * n ∧ s.seen.length % n = 0 ∧ n ≤ s.seen.length ∧
      s.cycleState = !lapCycle n s.seen.length)

variable {n buf k : Nat} {s s' : RingSystem} {r : Ring} {pushed : List TRB} {data : TRB}

/-- Counting on within a lap or into the next one. -/
theorem succ_lap (hn : 0 < n) (k : Nat) :
    (k % n + 1 < n ∧ (k + 1) % n = k % n + 1 ∧ (k + 1) / n = k / n) ∨
      (k % n + 1 = n ∧ (k + 1) % n = 0 ∧ (k + 1) / n = k / n + 1) := by
  have hk := Nat.div_add_mod k n
  have hlt := Nat.mod_lt k hn
  rcases Nat.lt_or_ge (k % n + 1) n with h | h
  · refine .inl ⟨h, ?_, ?_⟩
    · rw [← Nat.mod_add_mod, Nat.mod_eq_of_lt h]
    · conv_lhs => rw [← hk, Nat.add_assoc, Nat.mul_add_div hn, Nat.div_eq_of_lt h]
      rfl
  · have heq : k % n + 1 = n := by omega
    refine .inr ⟨heq, ?_, ?_⟩
    · rw [← Nat.mod_add_mod, heq, Nat.mod_self]
    · conv_lhs => rw [← hk, Nat.add_assoc, heq, Nat.mul_add_div hn, Nat.div_self hn]

theorem lapCycle_succ (q : Nat) : decide ((q + 1) % 2 = 0) = !decide (q % 2 = 0) := by
  rcases Nat.mod_two_eq_zero_or_one q with h | h
  · rw [h, show (q + 1) % 2 = 1 by omega]
    rfl
  · rw [h, show (q + 1) % 2 = 0 by omega]
    rfl

/-- The same slot one lap later has the other cycle bit. -/
theorem lapCycle_add (hn : 0 < n) (k : Nat) : lapCycle n (k + n) = !lapCycle n k := by
  rw [lapCycle, lapCycle, Nat.add_div_right k hn, lapCycle_succ]

theorem RingInv.init (hn : 0 < n) (buf : Nat) : RingInv n buf [] (Ring.init buf (n + 1)) where
  buf_eq := rfl
  bufSize := rfl
  writeIndex := rfl
  cycleBit := by simp [Ring.init, lapCycle]
  slot k h := absurd h (Nat.not_lt_zero k)
  empty j _ _ := by
    simp only [Ring.init, TRB.cycleBit]
    decide
  link h := absurd hn (Nat.not_lt.mpr h)

/-- Among `n` TRBs in a row no two share a slot. -/
theorem mod_ne_of_lt {j : Nat} (hkj : k < j) (hjk : j < k + n) : k % n ≠ j % n := by
  intro h
  have := (Nat.modEq_iff_dvd' hkj.le).mp h
  have := Nat.le_of_dvd (by omega) this
  omega

theorem RingInv.push (H : RingInv n buf pushed r) (hn : 0 < n) (data : TRB) :
    RingInv n buf (pushed ++ [data]) (r.push data) := by
  have hlt : pushed.length % n < n := Nat.mod_lt _ hn
  -- the slot writes of `Push` before the link
  have hslot (slots : Nat → TRB) (hslots : ∀ j < n, slots j =
      if j = pushed.length % n then data.setCycle (lapCycle n pushed.length) else r.slots j) :
      (∀ k (h : k < (pushed ++ [data]).length), (pushed ++ [data]).length ≤ k + n →
        slots (k % n) = (pushed ++ [data])[k].setCycle (lapCycle n k)) ∧
      ∀ j < n, (pushed ++ [data]).length ≤ j → (slots j).cycleBit = false := by
    refine ⟨fun k h hk => ?_, fun j hj hlen => ?_⟩
    · simp only [List.length_append, List.length_singleton] at h hk
      rw [hslots _ (Nat.mod_lt _ hn)]
      rcases Nat.lt_or_ge k pushed.length with hlt' | hge
      · rw [if_neg (mod_ne_of_lt hlt' (by omega)), H.slot k hlt' (by omega),
          List.getElem_append_left hlt']
      · obtain rfl : k = pushed.length := by omega
        rw [if_pos rfl, List.getElem_concat_length rfl]
    · simp only [List.length_append, List.length_singleton] at hlen
      rw [hslots j hj, if_neg, H.empty j hj (by omega)]
      rw [Nat.mod_eq_of_lt (by omega)]
      omega
  have hlen : (pushed ++ [data]).length = pushed.length + 1 := by simp
  rw [Ring.push]
  simp only [Ring.copyToLast, H.writeIndex, H.cycleBit, H.bufSize, H.buf_eq]
  rcases succ_lap hn pushed.length with ⟨hw, hmod, hdiv⟩ | ⟨hw, hmod, hdiv⟩
  · rw [if_neg (by omega)]
    obtain ⟨hold, hempty⟩ := hslot (Function.update r.slots (pushed.length % n)
      (data.setCycle (lapCycle n pushed.length))) fun j _ => by
        rw [Function.update_apply]
    refine ⟨rfl, rfl, ?_, ?_, hold, hempty, fun hle => ?_⟩
    · rw [hlen, hmod]
    · rw [hlen, lapCycle, lapCycle, hdiv]
    · refine (Function.update_of_ne (by omega) ..).trans ?_
      rw [hlen, lapCycle, hdiv, ← lapCycle]
      refine H.link ?_
      rw [hlen] at hle
      rcases Nat.lt_or_ge pushed.length n with h | h
      · rw [Nat.mod_eq_of_lt h] at hw
        omega
      · exact h
  · rw [if_pos (by omega)]
    obtain ⟨hold, hempty⟩ := hslot (Function.update (Function.update r.slots (pushed.length % n)
      (data.setCycle (lapCycle n pushed.length))) (pushed.length % n + 1)
        ((LinkTRB buf).setCycle (lapCycle n pushed.length))) fun j hj => by
        rw [Function.update_of_ne (by omega), Function.update_apply]
    have hcycle : lapCycle n (pushed.length + 1) = !lapCycle n pushed.length := by
      rw [lapCycle, lapCycle, hdiv, lapCycle_succ]
    refine ⟨rfl, rfl, ?_, ?_, hold, hempty, fun _ => ?_⟩
    · rw [hlen, hmod]
    · rw [hlen, hcycle]
    · simp only [hlen, hcycle, Bool.not_not, hw, Function.update_self]

namespace Inv

theorem init (hn : 0 < n) (buf : Nat) : Inv n buf (RingSystem.init buf (n + 1)) where
  ring := .init hn buf
  noLink t h := absurd h List.not_mem_nil
  seen := rfl
  le := Nat.le_refl 0
  bounded := Nat.zero_le _
  consumer := .inl ⟨by simp [RingSystem.init], by simp [RingSystem.init, lapCycle]⟩

theorem push (H : Inv n buf s) (hn : 0 < n) (hdata : data.trbType ≠ LinkTRB.Type)
    (hroom : s.pushed.length + 1 ≤ s.seen.length + (n - 1)) :
    Inv n buf { s with ring := s.ring.push data, pushed := s.pushed ++ [data] } where
  ring := H.ring.push hn data
  noLink t ht := by
    rcases List.mem_append.mp ht with ht | ht
    · exact H.noLink t ht
    · rwa [List.mem_singleton.mp ht]
  seen := by
    rw [List.take_append_of_le_length H.le]
    exact H.seen
  le := by
    have := H.le
    simp only [List.length_append, List.length_singleton]
    omega
  bounded := by simpa using hroom
  consumer := H.consumer

/-- What the consumer finds at the slot of the next TRB: the TRB if it was pushed, and otherwise the
cycle bit of the last lap. -/
theorem front_slot (H : Inv n buf s) (hn : 0 < n)
    (hdeq : s.dequeuePointer = buf + 16 * (s.seen.length % n)) :
    (∀ h : s.seen.length < s.pushed.length,
      s.front = s.pushed[s.seen.length].setCycle (lapCycle n s.seen.length)) ∧
    (s.seen.length = s.pushed.length → s.front.cycleBit = !lapCycle n s.seen.length) := by
  have hfront : s.front = s.ring.slots (s.seen.length % n) := by
    rw [front, hdeq, H.ring.buf_eq, Nat.add_sub_cancel_left, Nat.mul_div_cancel_left _ (by decide)]
  rw [hfront]
  have hbounded := H.bounded
  refine ⟨fun h => H.ring.slot _ h (by omega), fun heq => ?_⟩
  rcases Nat.lt_or_ge s.seen.length n with hlt | hge
  · rw [Nat.mod_eq_of_lt hlt, H.ring.empty _ hlt heq.ge]
    simp [lapCycle, Nat.div_eq_of_lt hlt]
  · obtain ⟨k, hk⟩ := Nat.exists_eq_add_of_le' hge
    rw [hk, Nat.add_mod_right, H.ring.slot k (by omega) (by omega), TRB.cycleBit_setCycle,
      lapCycle_add hn, Bool.not_not]

/-- What it finds at the link, when it has read a whole lap. -/
theorem front_link (H : Inv n buf s) (hn : 0 < n) (hdeq : s.dequeuePointer = buf + 16 * n)
    (hmod : s.seen.length % n = 0) (hle : n ≤ s.seen.length) :
    s.front = (LinkTRB buf).setCycle (!lapCycle n s.seen.length) := by
  have hbounded := H.bounded
  have hseen := H.le
  rw [front, hdeq, H.ring.buf_eq, Nat.add_sub_cancel_left, Nat.mul_div_cancel_left _ (by decide),
    H.ring.link (by omega)]
  -- producer and consumer are in the same lap
  have hlap : s.pushed.length / n = s.seen.length / n := by
    have hdvd := Nat.div_mul_cancel (Nat.dvd_of_mod_eq_zero hmod)
    refine Nat.div_eq_of_lt_le (by rw [hdvd]; exact hseen) ?_
    rw [Nat.succ_mul, hdvd]
    omega
  rw [lapCycle, lapCycle, hlap]

theorem consume (H : Inv n buf s) (hn : 0 < n) (hcycle : s.front.cycleBit = s.cycleState)
    (hlink : s.front.trbType ≠ LinkTRB.Type) :
    ∃ h : s.seen.length < s.pushed.length,
      s.front.setCycle false = s.pushed[s.seen.length].setCycle false ∧
      Inv n buf { s with
        dequeuePointer := s.dequeuePointer + 16
        seen := s.seen ++ [s.front] } := by
  rcases H.consumer with ⟨hdeq, hstate⟩ | ⟨hdeq, hmod, hle, hstate⟩
  · obtain ⟨hpushed, hnone⟩ := H.front_slot hn hdeq
    have hlt : s.seen.length < s.pushed.length := by
      refine Nat.lt_of_le_of_ne H.le fun heq => ?_
      rw [hnone heq, hstate] at hcycle
      exact Bool.not_ne_self _ hcycle
    have hfront := hpushed hlt
    have hsame : s.front.setCycle false = s.pushed[s.seen.length].setCycle false := by
      rw [hfront, TRB.setCycle_setCycle]
    refine ⟨hlt, hsame, H.ring, H.noLink, ?_, ?_, ?_, ?_⟩
    · simp only [List.length_append, List.length_singleton]
      rw [List.take_add_one, List.getElem?_eq_getElem hlt, List.map_append, List.map_append, H.seen]
      simp only [List.map_cons, List.map_nil, Option.toList_some, hsame]
    · simpa using hlt
    · have := H.bounded
      simp only [List.length_append, List.length_singleton]
      omega
    · simp only [List.length_append, List.length_singleton]
      rcases succ_lap hn s.seen.length with ⟨-, hmod, hdiv⟩ | ⟨hw, hmod, hdiv⟩
      · refine .inl ⟨?_, ?_⟩
        · rw [hdeq, hmod]
          omega
        · rw [hstate, lapCycle, lapCycle, hdiv]
      · refine .inr ⟨?_, hmod, ?_, ?_⟩
        · rw [hdeq]
          omega
        · exact Nat.le_of_dvd (Nat.succ_pos _) (Nat.dvd_of_mod_eq_zero hmod)
        · rw [hstate, lapCycle, lapCycle, hdiv, lapCycle_succ, Bool.not_not]
  · rw [H.front_link hn hdeq hmod hle, TRB.trbType_setCycle, trbType_linkTRB] at hlink
    exact absurd rfl hlink

theorem followLink (H : Inv n buf s) (hn : 0 < n) (hbuf : buf % 16 = 0) (hlt : buf < 2 ^ 64)
    (hcycle : s.front.cycleBit = s.cycleState) (hlink : s.front.trbType = LinkTRB.Type) :
    Inv n buf { s with
      dequeuePointer := s.front.pointer
      cycleState := if s.front.toggleCycle then !s.cycleState else s.cycleState } := by
  rcases H.consumer with ⟨hdeq, hstate⟩ | ⟨hdeq, hmod, hle, hstate⟩
  · obtain ⟨hpushed, hnone⟩ := H.front_slot hn hdeq
    rcases H.le.lt_or_eq with h | heq
    · rw [hpushed h, TRB.trbType_setCycle] at hlink
      exact absurd hlink (H.noLink _ (List.getElem_mem h))
    · rw [hnone heq, hstate] at hcycle
      exact absurd hcycle (Bool.not_ne_self _)
  · have hfront := H.front_link hn hdeq hmod hle
    refine ⟨H.ring, H.noLink, H.seen, H.le, H.bounded, .inl ⟨?_, ?_⟩⟩
    · simp only [hfront, TRB.pointer_setCycle, pointer_linkTRB hbuf hlt, hmod, Nat.mul_zero,
        Nat.add_zero]
    · simp only [hfront, TRB.toggleCycle_setCycle, toggleCycle_linkTRB, if_true, hstate,
        Bool.not_not]

theorem step (H : Inv n buf s) (hn : 0 < n) (hbuf : buf % 16 = 0) (hlt : buf < 2 ^ 64) {e : Event}
    (hs : s.step e = some s') : Inv n buf s' := by
  cases e with
  | push data =>
    rw [RingSystem.step, Option.ite_none_right_eq_some] at hs
    obtain ⟨⟨hdata, hroom⟩, hs⟩ := hs
    cases hs
    exact H.push hn hdata (by rw [H.ring.bufSize] at hroom; exact hroom)
  | consume =>
    rw [RingSystem.step, Option.ite_none_right_eq_some] at hs
    obtain ⟨⟨hcycle, hlink⟩, hs⟩ := hs
    cases hs
    obtain ⟨-, -, h⟩ := H.consume hn hcycle hlink
    exact h
  | followLink =>
    rw [RingSystem.step, Option.ite_none_right_eq_some] at hs
    obtain ⟨⟨hcycle, hlink⟩, hs⟩ := hs
    cases hs
    exact H.followLink hn hbuf hlt hcycle hlink

/-- While a TRB is waiting the consumer gets at it: at once, or behind the link. -/
theorem progress (H : Inv n buf s) (hn : 0 < n) (hbuf : buf % 16 = 0) (hlt : buf < 2 ^ 64)
    (hwait : s.seen.length < s.pushed.length) :
    (s.step .consume).isSome ∨ ∃ s', s.step .followLink = some s' ∧ (s'.step .consume).isSome := by
  -- in front of the next TRB
  have hslot {s : RingSystem} (H : Inv n buf s) (hwait : s.seen.length < s.pushed.length)
      (hdeq : s.dequeuePointer = buf + 16 * (s.seen.length % n))
      (hstate : s.cycleState = lapCycle n s.seen.length) : (s.step .consume).isSome := by
    have hfront := (H.front_slot hn hdeq).1 hwait
    rw [RingSystem.step, if_pos, Option.isSome_some]
    rw [hfront, TRB.cycleBit_setCycle, TRB.trbType_setCycle]
    exact ⟨hstate.symm, H.noLink _ (List.getElem_mem hwait)⟩
  rcases H.consumer with ⟨hdeq, hstate⟩ | ⟨hdeq, hmod, hle, hstate⟩
  · exact .inl (hslot H hwait hdeq hstate)
  · have hfront := H.front_link hn hdeq hmod hle
    have hcycle : s.front.cycleBit = s.cycleState := by
      rw [hfront, TRB.cycleBit_setCycle, hstate]
    have hlink : s.front.trbType = LinkTRB.Type := by
      rw [hfront, TRB.trbType_setCycle, trbType_linkTRB]
    refine .inr ⟨_, if_pos ⟨hcycle, hlink⟩,
      hslot (H.followLink hn hbuf hlt hcycle hlink) hwait ?_ ?_⟩
    · simp only [hfront, TRB.pointer_setCycle, pointer_linkTRB hbuf hlt, hmod, Nat.mul_zero,
        Nat.add_zero]
    · simp only [hfront, TRB.toggleCycle_setCycle, toggleCycle_linkTRB, if_true, hstate,
        Bool.not_not]

/-- With nothing waiting the consumer reads nothing. -/
theorem not_consume (H : Inv n buf s) (hn : 0 < n) (hdone : s.seen.length = s.pushed.length) :
    s.step .consume = none := by
  rw [RingSystem.step, if_neg]
  rintro ⟨hcycle, hlink⟩
  obtain ⟨h, -⟩ := H.consume hn hcycle hlink
  exact h.ne hdone

theorem run {es : List Event} (hn : 0 < n) (hbuf : buf % 16 = 0) (hlt : buf < 2 ^ 64)
    (hrun : system.Run (RingSystem.init buf (n + 1)) es s) : Inv n buf s :=
  hrun.invariant (I := Inv n buf) (fun _ _ _ H hs => H.step hn hbuf hlt hs) (.init hn buf)

end Inv

/-- A ring is a FIFO queue: the consumer reads the pushed TRBs, up to their cycle bits, in the order
and as often as they were pushed. It never reads what was not pushed, and reads on while anything
waits. -/
theorem refines_queue {bufSize : Nat} {es : List Event} (hsize : 3 ≤ bufSize) (hbuf : buf % 64 = 0)
    (hlt : buf < 2 ^ 64) (hrun : system.Run (RingSystem.init buf bufSize) es s) :
    s.seen.map (·.setCycle false) = (s.pushed.take s.seen.length).map (·.setCycle false) ∧
      s.seen.length ≤ s.pushed.length ∧
      (s.seen.length = s.pushed.length → s.step .consume = none) ∧
      (s.seen.length < s.pushed.length →
        (s.step .consume).isSome ∨
          ∃ s', s.step .followLink = some s' ∧ (s'.step .consume).isSome) := by
  obtain ⟨n, rfl⟩ : ∃ n, bufSize = n + 1 := ⟨bufSize - 1, by omega⟩
  have hn : 0 < n := by omega
  have hbuf : buf % 16 = 0 := by omega
  have H := Inv.run hn hbuf hlt hrun
  exact ⟨H.seen, H.le, H.not_consume hn, H.progress hn hbuf hlt⟩

/-- Once around a ring of three, and on behind the link. -/
def aroundThree : List Event := [
  .push ⟨1, 0, 0, 0x400⟩, .consume, .push ⟨2, 0, 0, 0x400⟩, .consume, .push ⟨3, 0, 0, 0x401⟩,
  .followLink, .consume]

theorem refines_queue_aroundThree :
    ∃ s, system.exec (.init 4096 3) aroundThree = some s ∧ s.seen.length = 3 ∧
      s.pushed.length = 3 ∧ s.seen.map (·.setCycle false) =
        (s.pushed.take s.seen.length).map (·.setCycle false) := by
  refine ⟨_, rfl, by decide +kernel, by decide +kernel, ?_⟩
  have hrun := Transition.System.run_of_exec
    (rfl : system.exec (.init 4096 3) aroundThree = some _)
  exact (refines_queue (by decide) (by decide) (by decide) hrun).1

end RingSystem

end MikanOS.Xhci
