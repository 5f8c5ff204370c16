import MikanOS.Error
import MikanOS.Usb.ArrayMap
import MikanOS.Usb.Descriptors
import MikanOS.Usb.Ring

/-! # Control transfers

`ControlIn`, `ControlOut` and `OnTransferEventReceived` of `xhci/device.cpp`. A transfer event points to the
TRB of the transfer that asked for it, and `setup_stage_map_` leads from there to the setup stage of the
same transfer. -/

namespace MikanOS.Xhci

open Usb (ArrayMap EndpointID kDefaultControlPipeID)

/-- `SetupData`. -/
@[ext]
structure SetupData where
  requestType : BitVec 8
  request : BitVec 8
  value : BitVec 16
  index : BitVec 16
  length : BitVec 16
  deriving DecidableEq

def NormalTRB.Type : Nat := 1
def SetupStageTRB.Type : Nat := 2
def DataStageTRB.Type : Nat := 3
def StatusStageTRB.Type : Nat := 4

def kNoDataStage : BitVec 2 := 0
def kOutDataStage : BitVec 2 := 2
def kInDataStage : BitVec 2 := 3

/-- `MakeSetupStageTRB`, with `immediate_data` and a `trb_transfer_length` of 8. -/
def MakeSetupStageTRB (setupData : SetupData) (transferType : BitVec 2) : TRB where
  data0 := setupData.value ++ setupData.request ++ setupData.requestType
  data1 := setupData.length ++ setupData.index
  data2 := 8
  data3 := transferType.setWidth 32 <<< 16 ||| 0x840

/-- `MakeDataStageTRB`, with `interrupt_on_completion` set. -/
def MakeDataStageTRB (buf : BitVec 64) (len : BitVec 32) (dirIn : Bool) : TRB where
  data0 := buf.setWidth 32
  data1 := (buf >>> 32).setWidth 32
  data2 := (len.setWidth 17).setWidth 32
  data3 := if dirIn then 0x10c20 else 0xc20

/-- `StatusStageTRB`. -/
def StatusStageTRB (direction interruptOnCompletion : Bool) : TRB where
  data0 := 0
  data1 := 0
  data2 := 0
  data3 := (if direction then 0x10000 else 0) ||| (if interruptOnCompletion then 0x20 else 0) |||
    0x1000

namespace TRB

variable (t : TRB)

/-- `trb_transfer_length` of a `NormalTRB` or a `DataStageTRB`. -/
def trbTransferLength : BitVec 17 := t.data2.setWidth 17

/-- `Pointer` of a `NormalTRB` or a `DataStageTRB`. -/
def dataBufferPointer : BitVec 64 := t.data1 ++ t.data0

/-- The setup data in a `SetupStageTRB`. -/
def setupData : SetupData where
  requestType := t.data0.extractLsb' 0 8
  request := t.data0.extractLsb' 8 8
  value := t.data0.extractLsb' 16 16
  index := t.data1.extractLsb' 0 16
  length := t.data1.extractLsb' 16 16

@[simp] theorem setupData_setCycle (b : Bool) : (t.setCycle b).setupData = t.setupData := rfl

@[simp] theorem setupData_makeSetupStageTRB (d : SetupData) (transferType : BitVec 2) :
    (MakeSetupStageTRB d transferType).setupData = d := by
  have hrequest : ((d.value ++ d.request) ++ d.requestType).extractLsb' 8 8 = d.request := by
    rw [BitVec.extractLsb'_append_eq_of_le (Nat.le_refl 8), BitVec.extractLsb'_append_eq_right]
  have hvalue : ((d.value ++ d.request) ++ d.requestType).extractLsb' 16 16 = d.value := by
    rw [BitVec.extractLsb'_append_eq_of_le (by decide), BitVec.extractLsb'_append_eq_left]
  have hrequestType : ((d.value ++ d.request) ++ d.requestType).extractLsb' 0 8 = d.requestType :=
    BitVec.extractLsb'_append_eq_right
  have hindex : (d.length ++ d.index).extractLsb' 0 16 = d.index :=
    BitVec.extractLsb'_append_eq_right
  have hlength : (d.length ++ d.index).extractLsb' 16 16 = d.length :=
    BitVec.extractLsb'_append_eq_left
  exact SetupData.ext hrequestType hrequest hvalue hindex hlength

theorem trbType_makeDataStageTRB (buf : BitVec 64) (len : BitVec 32) (dirIn : Bool) :
    (MakeDataStageTRB buf len dirIn).trbType = DataStageTRB.Type := by
  simp only [trbType, MakeDataStageTRB]
  cases dirIn <;> decide

theorem trbType_statusStageTRB (direction interruptOnCompletion : Bool) :
    (StatusStageTRB direction interruptOnCompletion).trbType = StatusStageTRB.Type := by
  simp only [trbType, StatusStageTRB]
  cases direction <;> cases interruptOnCompletion <;> decide

end TRB

/-- The address of the slot that `Push` returns. -/
def Ring.position (r : Ring) : Nat := r.buf + 16 * r.writeIndex

/-- `TransferEventTRB`. -/
structure TransferEventTRB where
  pointer : Nat
  trbTransferLength : BitVec 24
  completionCode : BitVec 8
  endpointID : EndpointID
  deriving DecidableEq

/-- What `OnTransferEventReceived` ends with: an error of its own or the call of a handler. -/
inductive Completion where
  | failed (err : Error)
  | onInterruptCompleted (epId : EndpointID) (buf : BitVec 64) (len : BitVec 32)
  | onControlCompleted (epId : EndpointID) (setupData : SetupData) (buf : BitVec 64) (len : BitVec 32)
  deriving DecidableEq

/-- `Device`. The class driver that waits for a request is known by its address. -/
structure Device where
  eventWaiters : ArrayMap SetupData Nat
  transferRings : Int → Option Ring
  setupStageMap : ArrayMap Nat Nat

namespace Device

variable (dev : Device)

/-- The part of `ControlIn` and `ControlOut` that is in `usb::Device`. -/
def putWaiter (setupData : SetupData) (issuer : Nat) : Device :=
  if issuer ≠ 0 then { dev with eventWaiters := dev.eventWaiters.put setupData issuer } else dev

/-- The transfer ring of an endpoint, with the checks of `ControlIn` and `ControlOut`. -/
def transferRing (epId : EndpointID) : Except Error Ring :=
  if epId.number < 0 ∨ 15 < epId.number then .error .kInvalidEndpointNumber
  else (dev.transferRings (epId.address - 1)).elim (.error .kTransferRingNotSet) .ok

/-- The TRBs of a transfer are on the ring, and the one that will be reported is at `position`. -/
def putTransfer (epId : EndpointID) (tr : Ring) (position setupTrbPosition : Nat) : Device :=
  { dev with
    transferRings := Function.update dev.transferRings (epId.address - 1) (some tr)
    setupStageMap := dev.setupStageMap.put position setupTrbPosition }

/-- A transfer with a data stage: `dataType` and `dirIn` tell its direction. -/
def pushWithData (epId : EndpointID) (tr : Ring) (setupData : SetupData) (buf : BitVec 64)
    (len : BitVec 32) (dataType : BitVec 2) (dirIn : Bool) : Device :=
  let setupTrbPosition := tr.position
  let tr := tr.push (MakeSetupStageTRB setupData dataType)
  let dataTrbPosition := tr.position
  let tr := tr.push (MakeDataStageTRB buf len dirIn)
  let tr := tr.push (StatusStageTRB (!dirIn) false)
  dev.putTransfer epId tr dataTrbPosition setupTrbPosition

/-- A transfer without one. -/
def pushNoData (epId : EndpointID) (tr : Ring) (setupData : SetupData) : Device :=
  let setupTrbPosition := tr.position
  let tr := tr.push (MakeSetupStageTRB setupData kNoDataStage)
  let statusTrbPosition := tr.position
  let tr := tr.push (StatusStageTRB true true)
  dev.putTransfer epId tr statusTrbPosition setupTrbPosition

/-- What `ControlIn` and `ControlOut` have in common. -/
def control (dataType : BitVec 2) (dirIn : Bool) (epId : EndpointID) (setupData : SetupData)
    (buf : BitVec 64) (len : BitVec 32) (issuer : Nat) : Device × Error :=
  let dev := dev.putWaiter setupData issuer
  match dev.transferRing epId with
  | .error err => (dev, err)
  | .ok tr =>
    if buf ≠ 0 then (dev.pushWithData epId tr setupData buf len dataType dirIn, .kSuccess)
    else (dev.pushNoData epId tr setupData, .kSuccess)

/-- `ControlIn`. -/
def controlIn := dev.control kInDataStage true

/-- `ControlOut`. -/
def controlOut := dev.control kOutDataStage false

/-- The TRB at an address. All that are looked at are in transfer rings. -/
def trb (p : Nat) : TRB :=
  ((List.range 31).findSome? fun i : Nat => (dev.transferRings i).bind fun r =>
    if r.buf ≤ p ∧ p < r.buf + 16 * r.bufSize then some (r.slots ((p - r.buf) / 16)) else none).getD
      ⟨0, 0, 0, 0⟩

/-- `OnTransferEventReceived`. -/
def onTransferEventReceived (trb : TransferEventTRB) : Device × Completion :=
  let residualLength := trb.trbTransferLength.setWidth 32
  if trb.completionCode ≠ 1 ∧ trb.completionCode ≠ 13 then (dev, .failed .kTransferFailed)
  else
    let issuerTrb := dev.trb trb.pointer
    let transferLength := issuerTrb.trbTransferLength.setWidth 32 - residualLength
    if issuerTrb.trbType = NormalTRB.Type then
      (dev, .onInterruptCompleted trb.endpointID issuerTrb.dataBufferPointer transferLength)
    else
      match dev.setupStageMap.get trb.pointer with
      | none => (dev, .failed .kNoCorrespondingSetupStage)
      | some setupStageTrb =>
        let dev := { dev with setupStageMap := dev.setupStageMap.delete trb.pointer }
        let setupData := (dev.trb setupStageTrb).setupData
        if issuerTrb.trbType = DataStageTRB.Type then
          (dev, .onControlCompleted trb.endpointID setupData issuerTrb.dataBufferPointer transferLength)
        else if issuerTrb.trbType = StatusStageTRB.Type then
          (dev, .onControlCompleted trb.endpointID setupData 0 0)
        else (dev, .failed .kNotImplemented)

/-- A device whose transfer rings are the new ones at the given addresses. -/
def init (bufs : Int → Option Nat) : Device where
  eventWaiters := .new SetupData Nat 4
  transferRings i := (bufs i).map fun buf => .init buf 32
  setupStageMap := .new Nat Nat 16

end Device

/-- A control transfer that was issued: its ring, the number of its setup stage among the TRBs given to
the ring, and its request. -/
structure Transfer where
  index : Int
  first : Nat
  setupData : SetupData
  deriving DecidableEq

/-- A transfer event that was handled, and how. -/
structure Handled where
  transfer : Transfer
  event : TransferEventTRB
  completion : Completion
  deriving DecidableEq

/-- A device with the history of its control transfers. -/
structure ControlSystem where
  dev : Device
  pushed : Int → List TRB
  outstanding : List Transfer
  handled : List Handled

namespace ControlSystem

inductive Event where
  | controlIn (epId : EndpointID) (setupData : SetupData) (buf : BitVec 64) (len : BitVec 32) (issuer : Nat)
  | controlOut (epId : EndpointID) (setupData : SetupData) (buf : BitVec 64) (len : BitVec 32) (issuer : Nat)
  | complete (k : Nat) (trb : TransferEventTRB)

/-- The number of TRBs of a transfer. -/
def stages (buf : BitVec 64) : Nat := if buf ≠ 0 then 3 else 2

/-- The TRBs that `control` pushes. -/
def trbs (dataType : BitVec 2) (dirIn : Bool) (setupData : SetupData) (buf : BitVec 64) (len : BitVec 32) :
    List TRB :=
  if buf ≠ 0 then
    [MakeSetupStageTRB setupData dataType, MakeDataStageTRB buf len dirIn, StatusStageTRB (!dirIn) false]
  else [MakeSetupStageTRB setupData kNoDataStage, StatusStageTRB true true]

variable (s : ControlSystem)

/-- The address of the TRB of a transfer that its event points to. -/
def position (t : Transfer) : Option Nat :=
  (s.dev.transferRings t.index).map fun r => r.buf + 16 * ((t.first + 1) % (r.bufSize - 1))

/-- A transfer is issued. At most 16 are outstanding. -/
def issue (dataType : BitVec 2) (dirIn : Bool) (epId : EndpointID) (setupData : SetupData)
    (buf : BitVec 64) (len : BitVec 32) (issuer : Nat) : Option ControlSystem :=
  if s.outstanding.length < 16 then
    let (dev, err) := s.dev.control dataType dirIn epId setupData buf len issuer
    let i := epId.address - 1
    some (if err = .kSuccess then
      { s with
        dev
        pushed := Function.update s.pushed i (s.pushed i ++ trbs dataType dirIn setupData buf len)
        outstanding := s.outstanding ++ [⟨i, (s.pushed i).length, setupData⟩] }
    else { s with dev })
  else none

/-- An outstanding transfer is completed. An event without an error points to the TRB of the transfer that
asks for it, one with an error to any TRB. -/
def complete (k : Nat) (trb : TransferEventTRB) : Option ControlSystem :=
  s.outstanding[k]?.bind fun t =>
    if trb.completionCode = 1 ∨ trb.completionCode = 13 → s.position t = some trb.pointer then
      let (dev, completion) := s.dev.onTransferEventReceived trb
      some { s with
        dev
        outstanding := s.outstanding.eraseIdx k
        handled := s.handled ++ [⟨t, trb, completion⟩] }
    else none

def step : Event → Option ControlSystem
  | .controlIn epId setupData buf len issuer =>
    s.issue kInDataStage true epId setupData buf len issuer
  | .controlOut epId setupData buf len issuer =>
    s.issue kOutDataStage false epId setupData buf len issuer
  | .complete k trb => s.complete k trb

def system : Transition.System ControlSystem Event := ⟨step⟩

def init (bufs : Int → Option Nat) : ControlSystem where
  dev := .init bufs
  pushed _ := []
  outstanding := []
  handled := []

/-- Every event without an error is passed on with the request of the transfer that it completes. -/
def Matched : Prop :=
  ∀ h ∈ s.handled, h.event.completionCode = 1 ∨ h.event.completionCode = 13 →
    ∃ buf len, h.completion = .onControlCompleted h.event.endpointID h.transfer.setupData buf len

/-- The state before a transfer is issued: an entry of `setup_stage_map_` is free, or has the key that the
transfer gets, and its TRBs do not reach round the ring to those of an outstanding transfer. -/
def FitsTransfer (epId : EndpointID) (buf : BitVec 64) : Prop :=
  ∀ tr, s.dev.transferRing epId = .ok tr →
    (s.dev.setupStageMap.HasFree ∨
      s.dev.setupStageMap.Has (tr.buf + 16 * ((tr.writeIndex + 1) % (tr.bufSize - 1)))) ∧
    ∀ t ∈ s.outstanding, t.index = epId.address - 1 →
      (s.pushed t.index).length + stages buf ≤ t.first + (tr.bufSize - 1)

def Fits : Event → Prop
  | .controlIn epId _ buf _ _ => s.FitsTransfer epId buf
  | .controlOut epId _ buf _ _ => s.FitsTransfer epId buf
  | .complete .. => True

end ControlSystem

end MikanOS.Xhci
