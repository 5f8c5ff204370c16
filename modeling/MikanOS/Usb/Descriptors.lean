import MikanOS.Error
import MikanOS.Library.FlatMemory

/-! # Configuration descriptors

`InitializePhase2` of `usb/device.cpp` reads the descriptors that a device returned for its
configuration. They follow each other in the buffer, each with its length in the first byte and its
type in the second one. Pointers are numbers here and the null pointer is `none`; what is read and
written on the way is recorded. -/

namespace MikanOS.Usb

/-- `EndpointID`. -/
structure EndpointID where
  address : Int
  deriving DecidableEq

/-- `Number`. -/
def EndpointID.number (epId : EndpointID) : Int := epId.address / 2

/-- `kDefaultControlPipeID`. -/
def kDefaultControlPipeID : EndpointID := ⟨1⟩

/-- `EndpointType`. -/
inductive EndpointType where
  | kControl | kIsochronous | kBulk | kInterrupt
  deriving DecidableEq, Inhabited

/-- `EndpointConfig`. -/
structure EndpointConfig where
  epId : EndpointID
  epType : EndpointType
  maxPacketSize : Nat
  interval : Nat
  deriving DecidableEq

/-- The class drivers, with the interface that they are for. -/
inductive ClassDriver where
  | keyboard (interfaceNumber : UInt8)
  | mouse (interfaceNumber : UInt8)
  deriving DecidableEq

def ConfigurationDescriptor.kType : UInt8 := 2
def InterfaceDescriptor.kType : UInt8 := 4
def EndpointDescriptor.kType : UInt8 := 5
def HIDDescriptor.kType : UInt8 := 33

/-- A read of `n` bytes, one through the null pointer, or a write of an entry of `ep_configs_`. -/
inductive Access where
  | read (addr n : Nat)
  | readNull (offset n : Nat)
  | writeEpConfig (i : Nat)
  deriving DecidableEq

/-- A read of a field of a descriptor. -/
def readField (desc : Option Nat) (offset n : Nat) : Access :=
  desc.elim (.readNull offset n) fun p => .read (p + offset) n

variable (m : FlatMemory.Memory)

/-- `DescriptorDynamicCast`. The cast of the null pointer is the null pointer. -/
def DescriptorDynamicCast (kType : UInt8) (desc : Option Nat) : List Access × Option Nat :=
  ([readField desc 1 1], if m (desc.getD 0 + 1) = kType then desc else none)

/-- `ConfigurationDescriptorReader`. -/
structure ConfigurationDescriptorReader where
  descBuf : Nat
  descBufLen : Int
  p : Nat

namespace ConfigurationDescriptorReader

variable (r : ConfigurationDescriptorReader)

/-- `Next`. -/
def next : List Access × Option Nat × ConfigurationDescriptorReader :=
  let p := r.p + (m r.p).toNat
  ([.read r.p 1], if (p : Int) < r.descBuf + r.descBufLen then some p else none, { r with p })

end ConfigurationDescriptorReader

/-- The `transfer_type` of an endpoint descriptor. -/
def endpointType (transferType : Nat) : EndpointType :=
  match transferType with
  | 0 => .kControl
  | 1 => .kIsochronous
  | 2 => .kBulk
  | _ => .kInterrupt

/-- `MakeEPConfig`. -/
def MakeEPConfig (epDesc : Nat) : List Access × EndpointConfig :=
  ([.read (epDesc + 2) 1, .read (epDesc + 3) 1, .read (epDesc + 4) 2, .read (epDesc + 6) 1],
    { epId := ⟨(m (epDesc + 2)).toNat % 16 * 2 + (m (epDesc + 2)).toNat / 128⟩
      epType := endpointType ((m (epDesc + 3)).toNat % 4)
      maxPacketSize := (m (epDesc + 4)).toNat + 256 * (m (epDesc + 5)).toNat
      interval := (m (epDesc + 6)).toNat })

/-- `NewClassDriver`. -/
def NewClassDriver (ifDesc : Nat) : List Access × Option ClassDriver :=
  if m (ifDesc + 5) = 3 then
    if m (ifDesc + 6) = 1 then
      if m (ifDesc + 7) = 1 then
        ([.read (ifDesc + 5) 1, .read (ifDesc + 6) 1, .read (ifDesc + 7) 1, .read (ifDesc + 2) 1],
          some (.keyboard (m (ifDesc + 2))))
      else if m (ifDesc + 7) = 2 then
        ([.read (ifDesc + 5) 1, .read (ifDesc + 6) 1, .read (ifDesc + 7) 1, .read (ifDesc + 2) 1],
          some (.mouse (m (ifDesc + 2))))
      else ([.read (ifDesc + 5) 1, .read (ifDesc + 6) 1, .read (ifDesc + 7) 1], none)
    else ([.read (ifDesc + 5) 1, .read (ifDesc + 6) 1], none)
  else ([.read (ifDesc + 5) 1], none)

/-- What `Log` reads of an interface descriptor. -/
def logInterface (ifDesc : Nat) : List Access :=
  [.read (ifDesc + 5) 1, .read (ifDesc + 6) 1, .read (ifDesc + 7) 1]

/-- What `Log` reads of a HID descriptor: the class descriptors behind it, too. -/
def logHID (hidDesc : Nat) : List Access :=
  [.read (hidDesc + 2) 2, .read (hidDesc + 5) 1] ++
    (List.range (m (hidDesc + 5)).toNat).flatMap fun i =>
      [.read (hidDesc + 6 + 3 * i) 1, .read (hidDesc + 6 + 3 * i + 1) 2]

/-- The ends of `InitializePhase2`: `setConfiguration` is the call of `SetConfiguration`. -/
inductive Result where
  | returned (err : Error)
  | setConfiguration (configValue : UInt8)
  deriving DecidableEq

/-- Which loop of `InitializePhase2` is running: the one over the interfaces, or the one over the
endpoints of an interface with a class driver. -/
inductive Loop where
  | interfaces
  | endpoints (ifDesc : Nat) (classDriver : ClassDriver)

/-- `InitializePhase2` between two turns of its loops. -/
structure Phase2 where
  configReader : ConfigurationDescriptorReader
  loop : Loop
  epConfigs : Nat → Option EndpointConfig
  numEpConfigs : Nat
  classDrivers : Nat → Option ClassDriver
  initializePhase : Nat
  result : Option Result

namespace Phase2

variable (s : Phase2)

/-- A turn of the loop in `Next<InterfaceDescriptor>`. The loop over the interfaces calls it again at
once for an interface without a class driver. -/
def interfaceTurn : List Access × Phase2 :=
  let (accesses, n, configReader) := s.configReader.next m
  let s := { s with configReader }
  match n with
  | none => (accesses, { s with result := some (.returned .kSuccess) })
  | some n =>
    let (cast, ifDesc) := DescriptorDynamicCast m InterfaceDescriptor.kType (some n)
    match ifDesc with
    | none => (accesses ++ cast, s)
    | some ifDesc =>
      let (fields, classDriver) := NewClassDriver m ifDesc
      (accesses ++ cast ++ logInterface ifDesc ++ fields,
        match classDriver with
        | none => s
        | some classDriver => { s with loop := .endpoints ifDesc classDriver, numEpConfigs := 0 })

/-- A turn of the loop over the endpoints, or what comes after it. -/
def endpointTurn (ifDesc : Nat) (classDriver : ClassDriver) : List Access × Phase2 :=
  if s.numEpConfigs < (m (ifDesc + 4)).toNat then
    let (accesses, desc, configReader) := s.configReader.next m
    let s := { s with configReader }
    let (cast, epDesc) := DescriptorDynamicCast m EndpointDescriptor.kType desc
    let accesses := .read (ifDesc + 4) 1 :: (accesses ++ cast)
    match epDesc with
    | some epDesc =>
      let (fields, conf) := MakeEPConfig m epDesc
      (accesses ++ fields ++ [.writeEpConfig s.numEpConfigs],
        { s with
          epConfigs := Function.update s.epConfigs s.numEpConfigs (some conf)
          numEpConfigs := s.numEpConfigs + 1
          classDrivers := Function.update s.classDrivers conf.epId.number.toNat (some classDriver) })
    | none =>
      let (cast, hidDesc) := DescriptorDynamicCast m HIDDescriptor.kType desc
      match hidDesc with
      | some hidDesc => (accesses ++ cast ++ logHID m hidDesc, s)
      | none => (accesses ++ cast, s)
  else
    ([.read (ifDesc + 4) 1, .read (s.configReader.descBuf + 5) 1],
      { s with
        initializePhase := 3
        result := some (.setConfiguration (m (s.configReader.descBuf + 5))) })

/-- One turn of the running loop: what it reads and writes, and the state after it. -/
def turn : List Access × Phase2 :=
  if s.result.isSome then ([], s)
  else
    match s.loop with
    | .interfaces => s.interfaceTurn m
    | .endpoints ifDesc classDriver => s.endpointTurn m ifDesc classDriver

def step : Phase2 := (s.turn m).2

/-- `InitializePhase2` up to its loops, on a device that has no class drivers. -/
def start (buf : Nat) (len : Int) : List Access × Phase2 :=
  let (accesses, confDesc) := DescriptorDynamicCast m ConfigurationDescriptor.kType (some buf)
  (accesses, {
    configReader := ⟨buf, len, buf⟩
    loop := .interfaces
    epConfigs _ := none
    numEpConfigs := 0
    classDrivers _ := none
    initializePhase := 2
    result := if confDesc.isNone then some (.returned .kInvalidDescriptor) else none })

/-- The function ends: after some turns no loop is running any more. -/
def Ends : Prop := ∃ n, ((step m)^[n] s).result.isSome

/-- What is read and written from here on. -/
def Accesses (a : Access) : Prop := ∃ n, a ∈ (((step m)^[n] s).turn m).1

end Phase2

/-- The access is in the `len` bytes from `buf` on or in `ep_configs_`. -/
def Access.Inside (buf : Nat) (len : Int) : Access → Prop
  | .read addr n => buf ≤ addr ∧ (addr + n : Int) ≤ buf + len
  | .readNull .. => False
  | .writeEpConfig i => i < 16

end MikanOS.Usb
