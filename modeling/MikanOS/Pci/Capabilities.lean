import MikanOS.Error
import MikanOS.Library.Chain
import MikanOS.Pci.ConfigSpace

/-! # Message signaled interrupts

`ConfigureMSI` of `pci.cpp` follows the list of capabilities of a device and sets the registers of an MSI
capability. All registers are read before the first one is written. -/

namespace MikanOS.Pci

/-- The bits of `CapabilityHeader` and of the header of `MSICapability`. -/
abbrev CapabilityHeader := BitVec 32

namespace CapabilityHeader

variable (header : CapabilityHeader)

def capId : BitVec 8 := header.extractLsb' 0 8
def nextPtr : BitVec 8 := header.extractLsb' 8 8
def multiMsgCapable : BitVec 3 := header.extractLsb' 17 3
def addr64Capable : Bool := header.getLsbD 23
def perVectorMaskCapable : Bool := header.getLsbD 24

/-- Assignment to the bits from `start` on. -/
def setBits {w : Nat} (start : Nat) (v : BitVec w) : CapabilityHeader :=
  header &&& ~~~((BitVec.allOnes w).setWidth 32 <<< start) ||| v.setWidth 32 <<< start

def setMsiEnable (v : BitVec 1) : CapabilityHeader := setBits header 16 v
def setMultiMsgEnable (v : BitVec 3) : CapabilityHeader := setBits header 20 v

/-- The number of registers that an MSI capability with this header has. -/
def numRegisters : Nat :=
  3 + (if addr64Capable header then 1 else 0) + if perVectorMaskCapable header then 2 else 0

theorem numRegisters_le : numRegisters header ≤ 6 := by
  rw [numRegisters]
  split <;> split <;> decide

variable {header}

theorem getLsbD_setBits {w start i : Nat} {v : BitVec w} (h : i < start ∨ start + w ≤ i) :
    (setBits header start v).getLsbD i = header.getLsbD i := by
  by_cases hi : i < 32
  · rcases h with h | h
    · simp [setBits, hi, h]
    · have hw : ¬ i - start < w := by omega
      simp [setBits, hi, hw, BitVec.getLsbD_of_ge v (i - start) (by omega)]
  · rw [BitVec.getLsbD_of_ge _ _ (by omega), BitVec.getLsbD_of_ge _ _ (by omega)]

/-- The flags that tell the registers stay. -/
theorem numRegisters_setBits {w start : Nat} {v : BitVec w} (h : start + w ≤ 23) :
    numRegisters (setBits header start v) = numRegisters header := by
  have h64 : addr64Capable (setBits header start v) = addr64Capable header := getLsbD_setBits (.inr h)
  have hmask : perVectorMaskCapable (setBits header start v) = perVectorMaskCapable header :=
    getLsbD_setBits (.inr (Nat.le_succ_of_le h))
  rw [numRegisters, h64, hmask, numRegisters]

end CapabilityHeader

open CapabilityHeader

def kCapabilityMSI : BitVec 8 := 0x05
def kCapabilityMSIX : BitVec 8 := 0x11

structure MSICapability where
  header : CapabilityHeader
  msgAddr : BitVec 32
  msgUpperAddr : BitVec 32
  msgData : BitVec 32
  maskBits : BitVec 32
  pendingBits : BitVec 32
  deriving DecidableEq, Repr

/-- `msg_data_addr`. -/
def msgDataAddr (header : CapabilityHeader) (capAddr : BitVec 8) : BitVec 8 :=
  if addr64Capable header then capAddr + 12 else capAddr + 8

/-- `WriteMSICapability`: what goes to the ports, in order. -/
def writeMSICapability (dev : Device) (capAddr : BitVec 8) (msiCap : MSICapability) :
    List (BitVec 32 × BitVec 32) :=
  let dataAddr := msgDataAddr msiCap.header capAddr
  [writeConfReg dev capAddr msiCap.header, writeConfReg dev (capAddr + 4) msiCap.msgAddr] ++
  (if addr64Capable msiCap.header then [writeConfReg dev (capAddr + 8) msiCap.msgUpperAddr] else []) ++
  [writeConfReg dev dataAddr msiCap.msgData] ++
  if perVectorMaskCapable msiCap.header then
    [writeConfReg dev (dataAddr + 4) msiCap.maskBits, writeConfReg dev (dataAddr + 8) msiCap.pendingBits]
  else []

/-- The registers are written one after the other, each once. -/
theorem map_writeMSICapability (dev : Device) (capAddr : BitVec 8) (msiCap : MSICapability) :
    (writeMSICapability dev capAddr msiCap).map Prod.fst =
      (List.range (numRegisters msiCap.header)).map fun i =>
        makeAddress dev.bus dev.device dev.function (capAddr + BitVec.ofNat 8 (4 * i)) := by
  cases h64 : addr64Capable msiCap.header <;> cases hmask : perVectorMaskCapable msiCap.header <;>
    simp [writeMSICapability, writeConfReg, msgDataAddr, numRegisters, h64, hmask, List.range_succ,
      BitVec.add_assoc]

namespace ConfigSpace

variable (conf : ConfigSpace) (dev : Device) (msgAddr msgData numVectorExponent : BitVec 32)

/-- `ReadCapabilityHeader`. -/
def readCapabilityHeader (addr : BitVec 8) : CapabilityHeader := conf.readConfReg dev addr

/-- `ReadMSICapability`. -/
def readMSICapability (capAddr : BitVec 8) : MSICapability :=
  let header := conf.readConfReg dev capAddr
  let dataAddr := msgDataAddr header capAddr
  { header
    msgAddr := conf.readConfReg dev (capAddr + 4)
    msgUpperAddr := if addr64Capable header then conf.readConfReg dev (capAddr + 8) else 0
    msgData := conf.readConfReg dev dataAddr
    maskBits := if perVectorMaskCapable header then conf.readConfReg dev (dataAddr + 4) else 0
    pendingBits := if perVectorMaskCapable header then conf.readConfReg dev (dataAddr + 8) else 0 }

/-- The capability that `ConfigureMSIRegister` writes back. -/
def configuredMSI (capAddr : BitVec 8) : MSICapability :=
  let msiCap := conf.readMSICapability dev capAddr
  let capable := multiMsgCapable msiCap.header
  let enable := if capable.toNat ≤ numVectorExponent.toNat then capable else numVectorExponent.setWidth 3
  { msiCap with
    header := setMsiEnable (setMultiMsgEnable msiCap.header enable) 1
    msgAddr
    msgData }

/-- `ConfigureMSIRegister`. -/
def configureMSIRegister (capAddr : BitVec 8) : Error × List (BitVec 32 × BitVec 32) :=
  (.kSuccess, writeMSICapability dev capAddr
    (conf.configuredMSI dev msgAddr msgData numVectorExponent capAddr))

/-- `ConfigureMSIXRegister`. -/
def configureMSIXRegister (_capAddr : BitVec 8) : Error × List (BitVec 32 × BitVec 32) :=
  (.kNotImplemented, [])

/-- The body of the loop of `ConfigureMSI`, for `msi_cap_addr` and `msix_cap_addr`. -/
def noteCapability (addrs : BitVec 8 × BitVec 8) (capAddr : BitVec 8) : BitVec 8 × BitVec 8 :=
  let id := capId (conf.readCapabilityHeader dev capAddr)
  if id = kCapabilityMSI then (capAddr, addrs.2)
  else if id = kCapabilityMSIX then (addrs.1, capAddr)
  else addrs

/-- The first value of `cap_addr`. -/
def capabilityPointer : BitVec 8 := (conf.readConfReg dev 0x34).setWidth 8

/-- The next value of `cap_addr`. -/
def nextCapability (capAddr : BitVec 8) : BitVec 8 := nextPtr (conf.readCapabilityHeader dev capAddr)

/-- `ConfigureMSI` behind the loop. -/
def configureAt (addrs : BitVec 8 × BitVec 8) : Error × List (BitVec 32 × BitVec 32) :=
  if addrs.1 ≠ 0 then conf.configureMSIRegister dev msgAddr msgData numVectorExponent addrs.1
  else if addrs.2 ≠ 0 then configureMSIXRegister addrs.2
  else (.kNoPCIMSI, [])

/-- `ConfigureMSI` with at most `turns` tests of the loop condition. -/
def configureMSI (turns : Nat) : Option (Error × List (BitVec 32 × BitVec 32)) :=
  (LinkedChain.loop (conf.nextCapability dev) (· = 0) (conf.noteCapability dev) turns
    (conf.capabilityPointer dev) (0, 0)).map (conf.configureAt dev msgAddr msgData numVectorExponent)

/-- The list of capabilities, if it ends. -/
def CapabilityList (l : List (BitVec 8)) : Prop :=
  LinkedChain.Walk (conf.nextCapability dev) (· = 0) (conf.capabilityPointer dev) l

def IsMSI (capAddr : BitVec 8) : Prop := capId (conf.readCapabilityHeader dev capAddr) = kCapabilityMSI

instance : DecidablePred (conf.IsMSI dev) := fun _ => inferInstanceAs (Decidable (_ = _))

/-- The number of the register that `cap_addr` selects. -/
def offset (capAddr : BitVec 8) : Nat := (capAddr &&& 0xfc#8).toNat

/-- `address` selects a register of the MSI capability at `capAddr`. -/
def IsRegister (capAddr : BitVec 8) (address : BitVec 32) : Prop :=
  ∃ i < numRegisters (conf.readCapabilityHeader dev capAddr), offset capAddr + 4 * i < 256 ∧
    address = makeAddress dev.bus dev.device dev.function (BitVec.ofNat 8 (offset capAddr + 4 * i))

/-- The loop ends, and with an MSI capability in the list the registers of one are written and no others. -/
def ConfiguresOwn : Prop :=
  ∃ turns result, conf.configureMSI dev msgAddr msgData numVectorExponent turns = some result ∧
    ∀ l, conf.CapabilityList dev l → (∃ a ∈ l, conf.IsMSI dev a) →
      ∃ a ∈ l, conf.IsMSI dev a ∧ ∀ address,
        address ∈ result.2.map Prod.fst ↔ conf.IsRegister dev a address

/-- The last MSI capability of a list. -/
def lastMSI (l : List (BitVec 8)) : Option (BitVec 8) := (l.filter (conf.IsMSI dev ·)).getLast?

variable {conf} {dev} {msgAddr} {msgData} {numVectorExponent} {a : BitVec 8} {l : List (BitVec 8)}

theorem offset_eq : offset a = a.toNat / 4 * 4 := and_fc_toNat a

theorem CapabilityList.unique {l' : List (BitVec 8)} (h : conf.CapabilityList dev l)
    (h' : conf.CapabilityList dev l') : l = l' := LinkedChain.Walk.unique h h'

theorem lastMSI_eq_some (h : conf.lastMSI dev l = some a) : a ∈ l ∧ conf.IsMSI dev a := by
  have hmem := List.mem_of_getLast? h
  rw [List.mem_filter, decide_eq_true_iff] at hmem
  exact hmem

theorem exists_lastMSI (h : ∃ a ∈ l, conf.IsMSI dev a) : ∃ a, conf.lastMSI dev l = some a := by
  obtain ⟨a, ha, hmsi⟩ := h
  have hmem : a ∈ l.filter (conf.IsMSI dev ·) := List.mem_filter.mpr ⟨ha, decide_eq_true hmsi⟩
  exact ⟨_, List.getLast?_eq_getLast_of_ne_nil (List.ne_nil_of_mem hmem)⟩

/-- The loop keeps the last MSI capability. -/
theorem foldl_noteCapability (addrs : BitVec 8 × BitVec 8) :
    (l.foldl (conf.noteCapability dev) addrs).1 = (conf.lastMSI dev l).getD addrs.1 := by
  induction l using List.reverseRecOn with
  | nil => rfl
  | append_singleton l a ih =>
    rw [List.foldl_append, List.foldl_cons, List.foldl_nil]
    by_cases hmsi : conf.IsMSI dev a
    · have hlast : conf.lastMSI dev (l ++ [a]) = some a := by simp [lastMSI, hmsi]
      rw [hlast, Option.getD_some, noteCapability]
      exact congrArg Prod.fst (if_pos hmsi)
    · have hlast : conf.lastMSI dev (l ++ [a]) = conf.lastMSI dev l := by simp [lastMSI, hmsi]
      rw [hlast, ← ih, noteCapability]
      refine (congrArg Prod.fst (if_neg hmsi)).trans ?_
      split <;> rfl

@[simp] theorem numRegisters_configuredMSI :
    numRegisters (conf.configuredMSI dev msgAddr msgData numVectorExponent a).header =
      numRegisters (conf.readCapabilityHeader dev a) := by
  rw [configuredMSI, setMsiEnable, setMultiMsgEnable, numRegisters_setBits (by decide),
    numRegisters_setBits (by decide)]
  rfl

theorem configureAt_of_lastMSI (hl : conf.CapabilityList dev l) (ha : conf.lastMSI dev l = some a) :
    conf.configureAt dev msgAddr msgData numVectorExponent (l.foldl (conf.noteCapability dev) (0, 0)) =
      conf.configureMSIRegister dev msgAddr msgData numVectorExponent a := by
  have hne : a ≠ 0 := hl.not_isEnd (lastMSI_eq_some ha).1
  rw [configureAt, foldl_noteCapability, ha, Option.getD_some, if_pos hne]

theorem mem_configureMSIRegister {address : BitVec 32} :
    address ∈ (conf.configureMSIRegister dev msgAddr msgData numVectorExponent a).2.map Prod.fst ↔
      ∃ i < numRegisters (conf.readCapabilityHeader dev a),
        address = makeAddress dev.bus dev.device dev.function (a + BitVec.ofNat 8 (4 * i)) := by
  rw [configureMSIRegister, map_writeMSICapability, numRegisters_configuredMSI]
  simp only [List.mem_map, List.mem_range, eq_comm]

variable (conf dev a) in
/-- All registers of the MSI capability at `a` are in the configuration space of 256 bytes. -/
def Fits : Prop := offset a + 4 * numRegisters (conf.readCapabilityHeader dev a) ≤ 256

theorem makeAddress_add_eq_iff {bus device function : BitVec 8} {i k : Nat} :
    makeAddress bus device function (a + BitVec.ofNat 8 (4 * i)) =
        makeAddress bus device function (BitVec.ofNat 8 k) ↔
      (offset a + 4 * i) % 256 / 4 = k % 256 / 4 := by
  rw [makeAddress_eq_iff, BitVec.toNat_add, BitVec.toNat_ofNat, BitVec.toNat_ofNat, offset_eq]
  omega

theorem isRegister_iff_of_fits {address : BitVec 32} (hfit : conf.Fits dev a) :
    conf.IsRegister dev a address ↔ ∃ i < numRegisters (conf.readCapabilityHeader dev a),
      address = makeAddress dev.bus dev.device dev.function (a + BitVec.ofNat 8 (4 * i)) := by
  refine exists_congr fun i => and_congr_right fun hi => ?_
  have hlt : offset a + 4 * i < 256 := by
    rw [Fits] at hfit
    omega
  rw [makeAddress_add_eq_iff.mpr rfl, and_iff_right hlt]

/-- Registers behind the end wrap around to the first ones, which no capability has together with the last. -/
theorem fits_of_isRegister {a' : BitVec 8}
    (h : ∀ i < numRegisters (conf.readCapabilityHeader dev a), conf.IsRegister dev a'
      (makeAddress dev.bus dev.device dev.function (a + BitVec.ofNat 8 (4 * i)))) :
    conf.Fits dev a := by
  by_contra hfit
  rw [Fits, offset_eq] at hfit
  have hbound := a.isLt
  have hpos : (252 - offset a) / 4 + 1 < numRegisters (conf.readCapabilityHeader dev a) := by
    rw [offset_eq]
    omega
  obtain ⟨i, hi, hlt, heq⟩ := h _ (Nat.lt_of_succ_lt hpos)
  obtain ⟨j, hj, hlt', heq'⟩ := h _ hpos
  have hle := numRegisters_le (conf.readCapabilityHeader dev a')
  rw [makeAddress_add_eq_iff] at heq heq'
  simp only [offset_eq] at heq heq' hlt hlt'
  omega

/-- The loop must reach the end of the list, and the capability that is configured must not run over the end
of the configuration space. -/
theorem configuresOwn_iff : conf.ConfiguresOwn dev msgAddr msgData numVectorExponent ↔
    ∃ l, conf.CapabilityList dev l ∧ ∀ a, conf.lastMSI dev l = some a → conf.Fits dev a := by
  constructor
  · rintro ⟨turns, result, hrun, hown⟩
    obtain ⟨addrs, hloop, rfl⟩ := Option.map_eq_some_iff.mp hrun
    obtain ⟨l, hl, rfl⟩ := LinkedChain.walk_of_loop hloop
    refine ⟨l, hl, fun a ha => ?_⟩
    obtain ⟨hmem, hmsi⟩ := lastMSI_eq_some ha
    obtain ⟨a', -, -, hregs⟩ := hown l hl ⟨a, hmem, hmsi⟩
    refine fits_of_isRegister fun i hi => (hregs _).mp ?_
    rw [configureAt_of_lastMSI hl ha, mem_configureMSIRegister]
    exact ⟨i, hi, rfl⟩
  · rintro ⟨l, hl, hfit⟩
    refine ⟨l.length + 1, _, congrArg _ (LinkedChain.loop_of_walk hl), fun l' hl' hmsi => ?_⟩
    obtain rfl := hl.unique hl'
    obtain ⟨a, ha⟩ := exists_lastMSI hmsi
    obtain ⟨hmem, hmsi⟩ := lastMSI_eq_some ha
    refine ⟨a, hmem, hmsi, fun address => ?_⟩
    rw [configureAt_of_lastMSI hl ha, mem_configureMSIRegister, isRegister_iff_of_fits (hfit a ha)]

/-- A device that answers all ones has a capability that is its own successor. -/
theorem not_configuresOwn_allOnes :
    ¬ ConfiguresOwn (fun _ => BitVec.allOnes 32) ⟨0, 20, 0, 0, ⟨0x0c, 0x03, 0x30⟩⟩ 0xfee00000 0xc040 0 := by
  rintro ⟨turns, result, hrun, -⟩
  obtain ⟨addrs, hloop, -⟩ := Option.map_eq_some_iff.mp hrun
  obtain ⟨l, hl, -⟩ := LinkedChain.walk_of_loop hloop
  exact hl.next_ne (by decide) (by decide)

end ConfigSpace

end MikanOS.Pci
