import Mathlib

/-! # The PCI configuration space

`pci.cpp` reaches the registers of all devices through the ports CONFIG_ADDRESS and CONFIG_DATA. A content of
the configuration space is what CONFIG_DATA answers for each value of CONFIG_ADDRESS. -/

namespace MikanOS.Pci

/-- What CONFIG_DATA answers for each value of CONFIG_ADDRESS. -/
abbrev ConfigSpace := BitVec 32 → BitVec 32

structure ClassCode where
  base : BitVec 8
  sub : BitVec 8
  interface : BitVec 8
  deriving DecidableEq, Repr

structure Device where
  bus : BitVec 8
  device : BitVec 8
  function : BitVec 8
  headerType : BitVec 8
  classCode : ClassCode
  deriving DecidableEq, Repr

/-- `MakeAddress`. -/
def makeAddress (bus device function regAddr : BitVec 8) : BitVec 32 :=
  1#32 <<< 31 ||| bus.setWidth 32 <<< 16 ||| device.setWidth 32 <<< 11 ||| function.setWidth 32 <<< 8 |||
    (regAddr.setWidth 32 &&& 0xfc#32)

theorem and_fc_toNat (r : BitVec 8) : (r &&& 0xfc#8).toNat = r.toNat / 4 * 4 := by
  revert r
  decide +kernel

theorem setWidth_and_fc (r : BitVec 8) : r.setWidth 32 &&& 0xfc#32 = (r &&& 0xfc#8).setWidth 32 := by
  revert r
  decide +kernel

theorem makeAddress_setWidth (bus device function regAddr : BitVec 8) :
    (makeAddress bus device function regAddr).setWidth 8 = regAddr &&& 0xfc#8 := by
  ext i hi
  simp [makeAddress]

/-- The registers are of 4 bytes. -/
theorem makeAddress_eq_iff {bus device function regAddr regAddr' : BitVec 8} :
    makeAddress bus device function regAddr = makeAddress bus device function regAddr' ↔
      regAddr.toNat / 4 = regAddr'.toNat / 4 := by
  constructor
  · intro h
    have hlow := congrArg (fun v : BitVec 32 => (v.setWidth 8).toNat) h
    simp only [makeAddress_setWidth, and_fc_toNat] at hlow
    omega
  · intro h
    have hlow : regAddr &&& 0xfc#8 = regAddr' &&& 0xfc#8 :=
      BitVec.eq_of_toNat_eq (by rw [and_fc_toNat, and_fc_toNat, h])
    rw [makeAddress, makeAddress, setWidth_and_fc, setWidth_and_fc, hlow]

/-- `WriteConfReg`: the values that go to CONFIG_ADDRESS and to CONFIG_DATA. -/
def writeConfReg (dev : Device) (regAddr : BitVec 8) (value : BitVec 32) : BitVec 32 × BitVec 32 :=
  (makeAddress dev.bus dev.device dev.function regAddr, value)

namespace ConfigSpace

variable (conf : ConfigSpace) (bus device function : BitVec 8) (dev : Device)

/-- `ReadVendorId`. -/
def readVendorId : BitVec 16 :=
  (conf (makeAddress bus device function 0x00)).setWidth 16

/-- `ReadHeaderType`. -/
def readHeaderType : BitVec 8 :=
  (conf (makeAddress bus device function 0x0c) >>> 16).setWidth 8

/-- `ReadClassCode`. -/
def readClassCode : ClassCode :=
  let reg := conf (makeAddress bus device function 0x08)
  ⟨(reg >>> 24).setWidth 8, (reg >>> 16).setWidth 8, (reg >>> 8).setWidth 8⟩

/-- `ReadBusNumbers`. -/
def readBusNumbers : BitVec 32 :=
  conf (makeAddress bus device function 0x18)

/-- `ReadConfReg`. -/
def readConfReg (regAddr : BitVec 8) : BitVec 32 :=
  conf (makeAddress dev.bus dev.device dev.function regAddr)

end ConfigSpace

end MikanOS.Pci
