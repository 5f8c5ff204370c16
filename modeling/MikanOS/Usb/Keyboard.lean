import MikanOS.Library.Bytes
import MikanOS.Usb.ControlMatching

/-! # The keyboard

From a completed interrupt transfer to the notifications of key pushes: `InterruptIn` and
`OnTransferEventReceived` of `xhci/device.cpp`, `OnInterruptCompleted` of `classdriver/hid.cpp` and
`OnDataReceived` of `classdriver/keyboard.cpp`. The controller writes a report, or the beginning of one,
into the buffer of the driver; the driver compares it with its copy of the buffer. -/

namespace MikanOS.Usb

/-- `IsIn`. -/
def EndpointID.isIn (epId : EndpointID) : Bool := epId.address % 2 = 1

end MikanOS.Usb

namespace MikanOS.Xhci

open Usb (EndpointID)

/-- A `NormalTRB` as `InterruptIn` builds it, with `interrupt_on_short_packet` and
`interrupt_on_completion`. -/
def NormalTRB (buf : BitVec 64) (len : BitVec 32) : TRB where
  data0 := buf.setWidth 32
  data1 := (buf >>> 32).setWidth 32
  data2 := (len.setWidth 17).setWidth 32
  data3 := 0x424

namespace TRB

theorem trbType_normalTRB (buf : BitVec 64) (len : BitVec 32) :
    (NormalTRB buf len).trbType = NormalTRB.Type := by
  simp only [trbType, NormalTRB]
  decide

theorem dataBufferPointer_normalTRB (buf : BitVec 64) (len : BitVec 32) :
    (NormalTRB buf len).dataBufferPointer = buf := by
  apply BitVec.eq_of_getLsbD_eq
  intro i hi
  rw [dataBufferPointer, NormalTRB, BitVec.getLsbD_append]
  split
  · rename_i hlt
    rw [BitVec.getLsbD_setWidth, decide_eq_true hlt, Bool.true_and]
  · rw [BitVec.getLsbD_setWidth, BitVec.getLsbD_ushiftRight, decide_eq_true (by omega),
      Bool.true_and, Nat.add_sub_cancel' (by omega)]

theorem trbTransferLength_normalTRB (buf : BitVec 64) :
    (NormalTRB buf 8).trbTransferLength = 8 := by
  simp only [trbTransferLength, NormalTRB]
  decide

@[simp] theorem dataBufferPointer_setCycle (t : TRB) (b : Bool) :
    (t.setCycle b).dataBufferPointer = t.dataBufferPointer := rfl

@[simp] theorem trbTransferLength_setCycle (t : TRB) (b : Bool) :
    (t.setCycle b).trbTransferLength = t.trbTransferLength := rfl

end TRB

namespace Device

/-- `InterruptIn`. -/
def interruptIn (dev : Device) (epId : EndpointID) (buf : BitVec 64) (len : BitVec 32) :
    Device × Error :=
  match dev.transferRings (epId.address - 1) with
  | none => (dev, .kTransferRingNotSet)
  | some tr =>
    ({ dev with
      transferRings :=
        Function.update dev.transferRings (epId.address - 1) (some (tr.push (NormalTRB buf len))) },
      .kSuccess)

/-- A completed interrupt transfer of 8 bytes is passed on with the number of bytes received. -/
theorem onTransferEventReceived_normal {dev : Device} {trb : TransferEventTRB} {buf : BitVec 64}
    {cycle : Bool} {n : Nat} (hissuer : dev.trb trb.pointer = (NormalTRB buf 8).setCycle cycle)
    (hcode : trb.completionCode = 1 ∨ trb.completionCode = 13) (hn : n ≤ 8)
    (hlen : trb.trbTransferLength = BitVec.ofNat 24 (8 - n)) :
    dev.onTransferEventReceived trb =
      (dev, .onInterruptCompleted trb.endpointID buf (BitVec.ofNat 32 n)) := by
  have hreceived : (8#17).setWidth 32 - (BitVec.ofNat 24 (8 - n)).setWidth 32 =
      BitVec.ofNat 32 n := by
    interval_cases n <;> decide
  rw [onTransferEventReceived, if_neg (fun h => hcode.elim h.1 h.2)]
  simp only [hissuer, hlen, TRB.trbType_setCycle, TRB.trbType_normalTRB, if_true,
    TRB.trbTransferLength_setCycle, TRB.trbTransferLength_normalTRB,
    TRB.dataBufferPointer_setCycle, TRB.dataBufferPointer_normalTRB]
  rw [← hreceived]
  rfl

end Device

end MikanOS.Xhci

namespace MikanOS.Usb

open Bytes Xhci

/-- A call of `NotifyKeyPush`. -/
structure KeyPush where
  modifier : UInt8
  keycode : UInt8
  press : Bool
  deriving DecidableEq

/-- `HIDKeyboardDriver`, with the fields of `HIDBaseDriver`; `buf_` is at the address `bufData`. -/
structure HIDKeyboardDriver where
  epInterruptIn : EndpointID
  inPacketSize : BitVec 32 := 8
  bufData : BitVec 64
  buf : Nat → UInt8 := fun _ => 0
  previousBuf : Nat → UInt8 := fun _ => 0

/-- `std::bitset<256>` with the bits of the key codes in a report. -/
def keyBits (buf : Nat → UInt8) : BitVec 256 :=
  (List.range' 2 6).foldl (fun bits i => bits ||| 1#256 <<< (buf i).toNat) 0#256

namespace HIDKeyboardDriver

variable (d : HIDKeyboardDriver)

/-- `OnDataReceived`: the calls of `NotifyKeyPush`. -/
def onDataReceived : List KeyPush :=
  let prev := keyBits d.previousBuf
  let current := keyBits d.buf
  let changed := prev ^^^ current
  let pressed := changed &&& current
  (List.range' 1 255).filterMap fun key =>
    if changed.getLsbD key then some ⟨d.buf 0, UInt8.ofNat key, pressed.getLsbD key⟩ else none

/-- `HIDBaseDriver::OnInterruptCompleted`. -/
def onInterruptCompleted (dev : Device) (epId : EndpointID) (len : BitVec 32) :
    HIDKeyboardDriver × Device × List KeyPush × Error :=
  if epId.isIn then
    let notified := d.onDataReceived
    let d := { d with previousBuf := memcpy d.previousBuf 0 d.buf 0 len.toInt.toNat }
    let (dev, err) := dev.interruptIn d.epInterruptIn d.bufData d.inPacketSize
    (d, dev, notified, err)
  else (d, dev, [], .kNotImplemented)

end HIDKeyboardDriver

/-- A device with a keyboard's driver. `classDrivers` tells the entries of `class_drivers_` that hold the
driver, `outstanding` is the address of the TRB that the controller works on. -/
structure KeyboardSystem where
  dev : Device
  driver : HIDKeyboardDriver
  classDrivers : Int → Bool
  outstanding : Nat
  notified : List KeyPush := []

/-- What the controller has received when it completes a transfer. -/
structure Report where
  data : List UInt8
  completionCode : BitVec 8
  deriving DecidableEq

namespace KeyboardSystem

variable (s : KeyboardSystem)

/-- The TRB that the controller works on. -/
def issuerTrb : TRB := s.dev.trb s.outstanding

/-- The controller writes what it has received to the buffer of the TRB. -/
def receive (data : List UInt8) : HIDKeyboardDriver :=
  if s.issuerTrb.dataBufferPointer = s.driver.bufData then
    { s.driver with buf := memcpy s.driver.buf 0 (fun i => data.getD i 0) 0 data.length }
  else s.driver

/-- The event that it posts, with the number of bytes that are missing. -/
def transferEvent (report : Report) : TransferEventTRB where
  pointer := s.outstanding
  trbTransferLength :=
    BitVec.ofNat 24 (s.issuerTrb.trbTransferLength.toNat - report.data.length)
  completionCode := report.completionCode
  endpointID := s.driver.epInterruptIn

/-- The address that the next TRB of the endpoint gets. -/
def nextPosition : Nat :=
  ((s.dev.transferRings (s.driver.epInterruptIn.address - 1)).map Ring.position).getD s.outstanding

/-- A transfer is completed with a report no longer than asked for; the driver is called, if
`class_drivers_` has it for the endpoint, and asks for the next report. -/
def step (report : Report) : Option KeyboardSystem :=
  if report.data.length ≤ s.issuerTrb.trbTransferLength.toNat ∧
      (report.completionCode = 1 ∨ report.completionCode = 13) then
    let driver := s.receive report.data
    match s.dev.onTransferEventReceived (s.transferEvent report) with
    | (dev, .onInterruptCompleted epId _ len) =>
      if s.classDrivers epId.number then
        let (driver, dev, notified, _) := driver.onInterruptCompleted dev epId len
        some { s with
          dev, driver, outstanding := s.nextPosition, notified := s.notified ++ notified }
      else some { s with dev, driver }
    | (dev, _) => some { s with dev, driver }
  else none

def system : Transition.System KeyboardSystem Report := ⟨step⟩

end KeyboardSystem

/-! ## The notifications of a key -/

/-- Whether the notifications of a key were presses, in order. -/
def presses (key : UInt8) (notified : List KeyPush) : List Bool :=
  (notified.filter (·.keycode = key)).map (·.press)

/-- Press and release take turns, press first. -/
def Alternates (l : List Bool) : Prop := ∀ i b, l[i]? = some b → b = decide (i % 2 = 0)

/-- The key was pressed and not released since. -/
def Down (key : UInt8) (notified : List KeyPush) : Prop :=
  (presses key notified).getLast? = some true

/-- The key is among the codes of a report. -/
def InReport (key : UInt8) (buf : Nat → UInt8) : Prop := ∃ i, (2 ≤ i ∧ i < 8) ∧ buf i = key

variable {buf : Nat → UInt8} {key : UInt8} {notified : List KeyPush} {l : List Bool} {b : Bool}

theorem presses_append (key : UInt8) (notified new : List KeyPush) :
    presses key (notified ++ new) = presses key notified ++ presses key new := by
  rw [presses, List.filter_append, List.map_append, presses, presses]

/-- The last of the notifications tells how many there are, up to two. -/
theorem Alternates.getLast?_iff (h : Alternates l) : l.getLast? = some true ↔ l.length % 2 = 1 := by
  rw [List.getLast?_eq_getElem?]
  cases hlast : l[l.length - 1]? with
  | none =>
    have := List.getElem?_eq_none_iff.mp hlast
    simp
    omega
  | some b =>
    have hlt := (List.getElem?_eq_some_iff.mp hlast).1
    rw [h _ _ hlast, Option.some.injEq, decide_eq_true_eq]
    omega

theorem Alternates.concat (h : Alternates l) (hb : b = true ↔ ¬ l.getLast? = some true) :
    Alternates (l ++ [b]) := by
  intro i c hc
  rcases Nat.lt_trichotomy i l.length with hi | rfl | hi
  · rw [List.getElem?_append_left hi] at hc
    exact h i c hc
  · rw [List.getElem?_concat_length, Option.some.injEq] at hc
    rw [h.getLast?_iff] at hb
    rw [← hc, Bool.eq_iff_iff, hb, decide_eq_true_eq]
    omega
  · rw [List.getElem?_eq_none (by simp; omega)] at hc
    cases hc

theorem getLsbD_keyBits (buf : Nat → UInt8) (key : UInt8) :
    (keyBits buf).getLsbD key.toNat = true ↔ InReport key buf := by
  have hfold : ∀ (l : List Nat) (bits : BitVec 256),
      (l.foldl (fun bits i => bits ||| 1#256 <<< (buf i).toNat) bits).getLsbD key.toNat = true ↔
        bits.getLsbD key.toNat = true ∨ ∃ i ∈ l, buf i = key := by
    intro l
    induction l with
    | nil => simp
    | cons i l ih =>
      intro bits
      have hbit : (1#256 <<< (buf i).toNat).getLsbD key.toNat = decide (buf i = key) := by
        rw [show 1#256 <<< (buf i).toNat = BitVec.twoPow 256 (buf i).toNat from rfl,
          BitVec.getLsbD_twoPow, decide_eq_true (UInt8.toNat_lt _), Bool.true_and]
        exact decide_eq_decide.mpr UInt8.toNat_inj
      rw [List.foldl_cons, ih, BitVec.getLsbD_or, hbit, Bool.or_eq_true, decide_eq_true_eq,
        or_assoc]
      simp
  rw [keyBits, hfold, BitVec.getLsbD_zero]
  simp [InReport, List.mem_range'_1]

/-- Only one element of the list gives something. -/
theorem filterMap_eq_toList {α β : Type} {f : α → Option β} {l : List α} {a : α} (hl : l.Nodup)
    (ha : a ∈ l) (hf : ∀ x ∈ l, x ≠ a → f x = none) : l.filterMap f = (f a).toList := by
  obtain ⟨l₁, l₂, rfl⟩ := List.append_of_mem ha
  have hne := List.nodup_middle.mp hl
  rw [List.nodup_cons, List.mem_append, not_or] at hne
  have h₁ : l₁.filterMap f = [] := List.filterMap_eq_nil_iff.mpr fun x hx =>
    hf x (by simp [hx]) fun h => hne.1.1 (h ▸ hx)
  have h₂ : l₂.filterMap f = [] := List.filterMap_eq_nil_iff.mpr fun x hx =>
    hf x (by simp [hx]) fun h => hne.1.2 (h ▸ hx)
  rw [List.filterMap_append, List.filterMap_cons, h₁, h₂]
  cases f a <;> rfl

/-- A report notifies of a key once if it changed, and not at all otherwise. -/
theorem presses_onDataReceived (d : HIDKeyboardDriver) (hkey : key ≠ 0) :
    (InReport key d.previousBuf ↔ InReport key d.buf) ∧ presses key d.onDataReceived = [] ∨
    ∃ b, (b = true ↔ InReport key d.buf) ∧ (b = true ↔ ¬ InReport key d.previousBuf) ∧
      presses key d.onDataReceived = [b] := by
  have hprev := getLsbD_keyBits d.previousBuf key
  have hcurrent := getLsbD_keyBits d.buf key
  have hpos : 1 ≤ key.toNat := by
    have : key.toNat ≠ 0 := fun h => hkey (UInt8.toNat_inj.mp h)
    omega
  have hlt := key.toNat_lt
  have hof (k : Nat) (hk : k < 256) : UInt8.ofNat k = key ↔ k = key.toNat := by
    rw [← UInt8.toNat_inj, UInt8.toNat_ofNat', Nat.mod_eq_of_lt hk]
  -- the number of the key is met once in the loop
  have honce : presses key d.onDataReceived =
      (if (keyBits d.previousBuf ^^^ keyBits d.buf).getLsbD key.toNat then
        some (((keyBits d.previousBuf ^^^ keyBits d.buf) &&& keyBits d.buf).getLsbD key.toNat)
      else none).toList := by
    rw [presses, HIDKeyboardDriver.onDataReceived, List.filter_filterMap, List.map_filterMap,
      filterMap_eq_toList List.nodup_range' (List.mem_range'_1.mpr ⟨hpos, hlt⟩)]
    · have hself := (hof key.toNat hlt).mpr rfl
      split <;> simp [hself]
    · intro k hk hne
      have hk' := List.mem_range'_1.mp hk
      have hother : UInt8.ofNat k ≠ key := fun h => hne ((hof k hk'.2).mp h)
      split <;> simp [hother]
  rw [honce, BitVec.getLsbD_and, BitVec.getLsbD_xor]
  cases hp : (keyBits d.previousBuf).getLsbD key.toNat <;>
    cases hc : (keyBits d.buf).getLsbD key.toNat <;> rw [hp] at hprev <;> rw [hc] at hcurrent
  · exact .inl ⟨by simpa [← hprev] using hcurrent, rfl⟩
  · exact .inr ⟨true, by simpa using hcurrent, by simpa using hprev, rfl⟩
  · exact .inr ⟨false, by simpa using hcurrent, by simpa using hprev, rfl⟩
  · exact .inl ⟨by simpa [← hprev] using hcurrent, rfl⟩

/-! ## Runs -/

/-- A configured keyboard: its interrupt-in endpoint has a transfer ring, apart from the others, and the
driver is registered for it. -/
structure KeyboardPipe where
  bufs : Int → Option Nat
  apart : Xhci.ControlSystem.Apart bufs
  epId : EndpointID
  isIn : epId.isIn = true
  ring : ∃ b, bufs (epId.address - 1) = some b
  classDrivers : Int → Bool
  registered : classDrivers epId.number = true
  bufData : BitVec 64

/-- `OnControlCompleted` of the driver has asked for the first report. -/
def KeyboardPipe.start (pipe : KeyboardPipe) : KeyboardSystem :=
  let s : KeyboardSystem :=
    { dev := .init pipe.bufs
      driver := { epInterruptIn := pipe.epId, bufData := pipe.bufData }
      classDrivers := pipe.classDrivers
      outstanding := 0 }
  { s with
    dev := (s.dev.interruptIn s.driver.epInterruptIn s.driver.bufData s.driver.inPacketSize).1
    outstanding := s.nextPosition }

namespace KeyboardSystem

variable {s s' : KeyboardSystem} {report : Report}

/-- The TRB of the endpoint that was pushed last asks for 8 bytes into the driver's buffer. -/
structure Asked (dev : Device) (epId : EndpointID) (bufData : BitVec 64) (outstanding : Nat) :
    Prop where
  apart : dev.RingsApart
  ring : ∃ r pushed, dev.transferRings (epId.address - 1) = some r ∧
    RingSystem.RingInv 31 r.buf (pushed ++ [NormalTRB bufData 8]) r ∧
    outstanding = r.buf + 16 * (pushed.length % 31)

/-- Between two reports the driver's copy agrees with its buffer, the notifications of each key take
turns, and the keys that are down are those of the buffer. -/
structure Inv (s : KeyboardSystem) : Prop where
  asked : Asked s.dev s.driver.epInterruptIn s.driver.bufData s.outstanding
  isIn : s.driver.epInterruptIn.isIn = true
  registered : s.classDrivers s.driver.epInterruptIn.number = true
  inPacketSize : s.driver.inPacketSize = 8
  copied : s.driver.previousBuf = s.driver.buf
  alternates : ∀ key ≠ 0, Alternates (presses key s.notified)
  down : ∀ key ≠ 0, Down key s.notified ↔ InReport key s.driver.buf

/-- `InterruptIn` asks for the next report. -/
theorem Asked.interruptIn {dev : Device} {epId : EndpointID} {bufData : BitVec 64} {r : Ring}
    {pushed : List TRB} (hapart : dev.RingsApart)
    (hr : dev.transferRings (epId.address - 1) = some r) (hring : RingSystem.RingInv 31 r.buf pushed r) :
    Asked (dev.interruptIn epId bufData 8).1 epId bufData r.position := by
  have hpush := hring.push (by decide) (NormalTRB bufData 8)
  have hbuf := hpush.buf_eq
  have hold {i : Int} {r' : Ring} (h : (dev.interruptIn epId bufData 8).1.transferRings i = some r') :
      ∃ r'', dev.transferRings i = some r'' ∧ r'.buf = r''.buf ∧ r'.bufSize = 32 := by
    rw [Device.interruptIn, hr] at h
    simp only [Function.update_apply] at h
    split at h
    · rename_i hi
      cases h
      exact ⟨r, hi ▸ hr, hbuf, hpush.bufSize⟩
    · exact ⟨r', h, rfl, hapart.bufSize i r' h⟩
  refine ⟨⟨fun i r' h => ?_, fun i r' h => ?_, fun i j r₁ r₂ h₁ h₂ hne => ?_⟩, ?_⟩
  · obtain ⟨r'', h'', -, -⟩ := hold h
    exact hapart.index i r'' h''
  · obtain ⟨-, -, -, hsize⟩ := hold h
    exact hsize
  · obtain ⟨r₁', h₁', hbuf₁, -⟩ := hold h₁
    obtain ⟨r₂', h₂', hbuf₂, -⟩ := hold h₂
    rw [hbuf₁, hbuf₂]
    exact hapart.disjoint i j r₁' r₂' h₁' h₂' hne
  · refine ⟨_, pushed, by rw [Device.interruptIn, hr]; exact Function.update_self .., ?_, ?_⟩
    · rw [hbuf]
      exact hpush
    · rw [hbuf, Ring.position, hring.writeIndex]

/-- The TRB that the controller works on. -/
theorem Inv.issuerTrb (H : Inv s) :
    ∃ cycle, s.issuerTrb = (NormalTRB s.driver.bufData 8).setCycle cycle := by
  obtain ⟨r, pushed, hr, hring, hout⟩ := H.asked.ring
  have hslot := hring.slot pushed.length (by simp) (by simp)
  rw [List.getElem_concat_length rfl] at hslot
  refine ⟨RingSystem.lapCycle 31 pushed.length, ?_⟩
  rw [KeyboardSystem.issuerTrb, hout, Device.trb_eq H.asked.apart hr (Nat.mod_lt _ (by decide)),
    hslot]

/-- What one report does: the buffer begins with the report, and the driver has compared and copied
it. -/
theorem Inv.step_eq (H : Inv s) (hlen : report.data.length ≤ 8)
    (hcode : report.completionCode = 1 ∨ report.completionCode = 13) :
    ∃ s', s.step report = some s' ∧
      Asked s'.dev s.driver.epInterruptIn s.driver.bufData s'.outstanding ∧
      s'.classDrivers = s.classDrivers ∧
      let buf := memcpy s.driver.buf 0 (fun i => report.data.getD i 0) 0 report.data.length
      s'.driver = { s.driver with buf, previousBuf := buf } ∧
      s'.notified = s.notified ++ HIDKeyboardDriver.onDataReceived { s.driver with buf } := by
  obtain ⟨cycle, hissuer⟩ := H.issuerTrb
  obtain ⟨r, pushed, hr, hring, -⟩ := H.asked.ring
  have hasks : s.issuerTrb.trbTransferLength = 8 := by
    rw [hissuer, TRB.trbTransferLength_setCycle, TRB.trbTransferLength_normalTRB]
  have hreceive : s.receive report.data = { s.driver with
      buf := memcpy s.driver.buf 0 (fun i => report.data.getD i 0) 0 report.data.length } := by
    rw [receive, hissuer, TRB.dataBufferPointer_setCycle, TRB.dataBufferPointer_normalTRB, if_pos rfl]
  have hresidual : (s.transferEvent report).trbTransferLength =
      BitVec.ofNat 24 (8 - report.data.length) := by
    rw [transferEvent, hasks]
    rfl
  have hevent : s.dev.onTransferEventReceived (s.transferEvent report) =
      (s.dev, .onInterruptCompleted (s.transferEvent report).endpointID s.driver.bufData
        (BitVec.ofNat 32 report.data.length)) :=
    Device.onTransferEventReceived_normal hissuer hcode hlen hresidual
  have hint : (BitVec.ofNat 32 report.data.length).toInt.toNat = report.data.length := by
    have : ∀ n ≤ 8, (BitVec.ofNat 32 n).toInt.toNat = n := by decide
    exact this _ hlen
  have hcopy (src : Nat → UInt8) (n : Nat) :
      memcpy s.driver.previousBuf 0 (memcpy s.driver.buf 0 src 0 n) 0 n =
        memcpy s.driver.buf 0 src 0 n := by
    rw [H.copied]
    funext i
    simp only [memcpy]
    split_ifs <;> simp_all
  have hposition : s.nextPosition = r.position := by
    rw [nextPosition, hr]
    rfl
  have hasked : Asked (s.dev.interruptIn s.driver.epInterruptIn s.driver.bufData 8).1
      s.driver.epInterruptIn s.driver.bufData r.position := .interruptIn H.asked.apart hr hring
  have hisIn : (s.transferEvent report).endpointID.isIn = true := H.isIn
  have hregistered : s.classDrivers (s.transferEvent report).endpointID.number = true := H.registered
  have hstep : s.step report = some { s with
      dev := (s.dev.interruptIn s.driver.epInterruptIn s.driver.bufData 8).1
      driver := { s.driver with
        buf := memcpy s.driver.buf 0 (fun i => report.data.getD i 0) 0 report.data.length
        previousBuf := memcpy s.driver.buf 0 (fun i => report.data.getD i 0) 0 report.data.length }
      outstanding := r.position
      notified := s.notified ++ HIDKeyboardDriver.onDataReceived { s.driver with
        buf := memcpy s.driver.buf 0 (fun i => report.data.getD i 0) 0 report.data.length } } := by
    rw [step, if_pos ⟨by rw [hasks]; exact hlen, hcode⟩, hevent]
    simp only [hregistered, if_true, HIDKeyboardDriver.onInterruptCompleted, hisIn, hreceive, hint,
      hcopy, H.inPacketSize, hposition]
  exact ⟨_, hstep, hasked, rfl, rfl, rfl⟩

/-- One report. -/
theorem Inv.step (H : Inv s) (hlen : report.data.length ≤ 8)
    (hcode : report.completionCode = 1 ∨ report.completionCode = 13) :
    ∃ s', s.step report = some s' ∧ Inv s' := by
  obtain ⟨s', hstep, hasked, hclass, hdriver, hnotified⟩ := H.step_eq hlen hcode
  generalize hbuf : memcpy s.driver.buf 0 (fun i => report.data.getD i 0) 0 report.data.length = buf
    at hdriver hnotified
  have hkeys : ∀ key ≠ 0, Alternates (presses key s'.notified) ∧
      (Down key s'.notified ↔ InReport key s'.driver.buf) := by
    intro key hkey
    have halt := H.alternates key hkey
    have hdown := H.down key hkey
    rw [Down] at hdown
    rw [Down, hnotified, presses_append, hdriver]
    rcases presses_onDataReceived { s.driver with buf } hkey with ⟨hsame, hnone⟩ | ⟨b, hb, hb', hone⟩
    · rw [hnone, List.append_nil, hdown, ← H.copied]
      exact ⟨halt, hsame⟩
    · rw [hone]
      refine ⟨halt.concat ?_, ?_⟩
      · rw [hb', hdown, ← H.copied]
      · rw [List.getLast?_concat, Option.some.injEq]
        exact hb
  refine ⟨s', hstep, ?_, ?_, ?_, ?_, ?_, fun key hkey => (hkeys key hkey).1,
    fun key hkey => (hkeys key hkey).2⟩
  · rw [hdriver]
    exact hasked
  · rw [hdriver]
    exact H.isIn
  · rw [hdriver, hclass]
    exact H.registered
  · rw [hdriver]
    exact H.inPacketSize
  · rw [hdriver]

theorem Inv.start (pipe : KeyboardPipe) : Inv pipe.start := by
  have hrings {i : Int} {r : Xhci.Ring} (h : (Device.init pipe.bufs).transferRings i = some r) :
      ∃ b, pipe.bufs i = some b ∧ r = Xhci.Ring.init b 32 := by
    obtain ⟨b, hb, hr⟩ := Option.map_eq_some_iff.mp h
    exact ⟨b, hb, hr.symm⟩
  have hapart : (Device.init pipe.bufs).RingsApart := by
    refine ⟨fun i r h => ?_, fun i r h => ?_, fun i j r r' h h' hne => ?_⟩
    · obtain ⟨b, hb, -⟩ := hrings h
      exact pipe.apart.index i b hb
    · obtain ⟨b, -, rfl⟩ := hrings h
      rfl
    · obtain ⟨b, hb, rfl⟩ := hrings h
      obtain ⟨b', hb', rfl⟩ := hrings h'
      exact pipe.apart.disjoint i j b b' hb hb' hne
  obtain ⟨b, hb⟩ := pipe.ring
  have hr : (Device.init pipe.bufs).transferRings (pipe.epId.address - 1) =
      some (Xhci.Ring.init b 32) := by
    rw [Device.init]
    exact congrArg (Option.map fun buf => Xhci.Ring.init buf 32) hb
  have hposition : pipe.start.outstanding = (Xhci.Ring.init b 32).position := by
    simp only [KeyboardPipe.start, nextPosition, hr, Option.map_some, Option.getD_some]
  refine ⟨?_, pipe.isIn, pipe.registered, rfl, rfl, fun key _ i b hb => ?_, fun key hkey => ?_⟩
  · rw [hposition]
    exact Asked.interruptIn hapart hr (.init (by decide) b)
  · cases hb
  · refine iff_of_false (fun h => by cases h) ?_
    rintro ⟨i, -, hi⟩
    exact hkey hi.symm

end KeyboardSystem

/-- Whatever the lengths of the reports, the notifications of each key take turns, press first, and
after the last report the keys that are down are the codes in the buffer. -/
theorem keyboard_notified (pipe : KeyboardPipe) (reports : List Report)
    (hreports : ∀ report ∈ reports, report.data.length ≤ 8 ∧
      (report.completionCode = 1 ∨ report.completionCode = 13)) :
    ∃ s, KeyboardSystem.system.exec pipe.start reports = some s ∧
      ∀ key ≠ 0, Alternates (presses key s.notified) ∧
        (Down key s.notified ↔ InReport key s.driver.buf) := by
  suffices H : ∀ s, KeyboardSystem.Inv s →
      ∃ s', KeyboardSystem.system.exec s reports = some s' ∧ KeyboardSystem.Inv s' by
    obtain ⟨s, hexec, hinv⟩ := H pipe.start (.start pipe)
    exact ⟨s, hexec, fun key hkey => ⟨hinv.alternates key hkey, hinv.down key hkey⟩⟩
  induction reports with
  | nil => exact fun s hs => ⟨s, rfl, hs⟩
  | cons report reports ih =>
    intro s hs
    obtain ⟨hlen, hcode⟩ := hreports report List.mem_cons_self
    obtain ⟨s', hstep, hs'⟩ := hs.step hlen hcode
    obtain ⟨s'', hexec, hs''⟩ := ih (fun r hr => hreports r (List.mem_cons_of_mem _ hr)) s' hs'
    refine ⟨s'', ?_, hs''⟩
    rw [Transition.System.exec]
    exact (congrArg (Option.bind · _) hstep).trans hexec

/-- A keyboard at the endpoint 1, without any other ring. -/
def keyboardAtOne : KeyboardPipe where
  bufs i := if i = 2 then some 0x1000 else none
  apart := by
    have htwo {i : Int} {b : Nat} (h : (if i = 2 then some 0x1000 else none) = some b) : i = 2 :=
      (Option.ite_none_right_eq_some.mp h).1
    refine ⟨fun i b h => ?_, fun i j b b' h h' hne => ?_⟩
    · rw [htwo h]
      decide
    · exact absurd ((htwo h).trans (htwo h').symm) hne
  epId := ⟨3⟩
  isIn := rfl
  ring := ⟨0x1000, rfl⟩
  classDrivers i := i = 1
  registered := rfl
  bufData := 0x2000

/-- A key is pressed, in a short packet, then another one with it, and both are released. -/
def twoKeys : List Report := [⟨[0, 0, 4], 13⟩, ⟨[2, 0, 5, 4, 0, 0, 0, 0], 1⟩, ⟨[0, 0, 0, 0], 13⟩]

theorem keyboard_notified_twoKeys :
    ∃ s, KeyboardSystem.system.exec keyboardAtOne.start twoKeys = some s ∧
      ∀ key ≠ 0, Alternates (presses key s.notified) ∧
        (Down key s.notified ↔ InReport key s.driver.buf) :=
  keyboard_notified keyboardAtOne twoKeys (by decide)

end MikanOS.Usb
