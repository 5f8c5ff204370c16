import MikanOS.Usb.PortPhase

/-! # The device manager and the device context base address array

`devmgr.cpp` and what the event handlers of `xhci.cpp` do with it. Slot numbers come from the controller, and
entry 0 of the array is the one of the scratchpad buffers. -/

namespace MikanOS.Xhci

/-- A `Device`, as far as the manager uses it: the address of its `DeviceContext`. -/
structure DeviceManager.Device where
  deviceContext : Nat

/-- `DeviceManager`. `devices` and `deviceContextPointers` are arrays with `maxSlots + 1` elements. -/
structure DeviceManager where
  maxSlots : Nat
  devices : Nat → Option DeviceManager.Device
  deviceContextPointers : Nat → Nat

/-- `Controller::kDeviceSize`. -/
def kDeviceSize : Nat := 8

namespace DeviceManager

variable (devmgr : DeviceManager)

/-- `DeviceManager::Initialize`. -/
def Initialize (maxSlots : Nat) : DeviceManager where
  maxSlots
  devices _ := none
  deviceContextPointers _ := 0

def findBySlot (slotId : Nat) : Option DeviceManager.Device :=
  if devmgr.maxSlots < slotId then none else devmgr.devices slotId

/-- `AllocDevice`; `alloc` is what `AllocArray` gives. -/
def allocDevice (slotId : Nat) (alloc : Option DeviceManager.Device) : Error × DeviceManager :=
  if devmgr.maxSlots < slotId then (.kInvalidSlotID, devmgr)
  else if (devmgr.devices slotId).isSome then (.kAlreadyAllocated, devmgr)
  else (.kSuccess, { devmgr with devices := Function.update devmgr.devices slotId alloc })

def loadDCBAA (slotId : Nat) : Error × DeviceManager :=
  if devmgr.maxSlots < slotId then (.kInvalidSlotID, devmgr)
  else
    let deviceContext := ((devmgr.devices slotId).map (·.deviceContext)).getD 0
    (.kSuccess, { devmgr with
      deviceContextPointers := Function.update devmgr.deviceContextPointers slotId deviceContext })

end DeviceManager

/-- The controller, as far as the ports and the slots go. -/
structure Controller where
  ports : Ports
  devmgr : DeviceManager

/-- The fields of a command completion event, with what its handler reads: the type of the command's TRB,
the port in the device context of the slot, the connection of the ports, and the memory for a device. -/
structure CommandCompletion where
  issuerType : Nat
  completionCode : Nat
  slotId : Nat
  rootHubPortNum : Fin 256
  isConnected : Fin 256 → Bool
  alloc : Option DeviceManager.Device

/-- The completion code of a command that did what it should. -/
def kSuccessCode : Nat := 1

namespace Controller

variable (c : Controller)

/-- `Controller::Initialize`; `scratchpad` is the address of the scratchpad buffer array, if the controller
asks for one. -/
def Initialize (scratchpad : Option Nat) : Controller :=
  let devmgr := DeviceManager.Initialize kDeviceSize
  let pointers := match scratchpad with
    | some a => Function.update devmgr.deviceContextPointers 0 a
    | none => devmgr.deviceContextPointers
  { ports := {}, devmgr := { devmgr with deviceContextPointers := pointers } }

/-- `AddressDevice`, which does not look at what `AllocDevice` and `LoadDCBAA` return. -/
def addressDevice (portId : Fin 256) (slotId : Nat) (alloc : Option DeviceManager.Device) :
    Error × Controller :=
  let devmgr := (c.devmgr.allocDevice slotId alloc).2
  match devmgr.findBySlot slotId with
  | none => (.kInvalidSlotID, { c with devmgr })
  | some _ =>
    let devmgr := (devmgr.loadDCBAA slotId).2
    (.kSuccess, { c with devmgr, ports := c.ports.setPhase portId .kAddressingDevice })

/-- `OnEvent` for a command completion event. The completion code plays no part. -/
def onCommandCompletion (e : CommandCompletion) : Error × Controller :=
  if e.issuerType = EnableSlotCommandTRB.Type then
    if c.ports.portConfigPhase c.ports.addressingPort ≠ .kEnablingSlot then (.kInvalidPhase, c)
    else c.addressDevice c.ports.addressingPort e.slotId e.alloc
  else
    let dev := (c.devmgr.findBySlot e.slotId).map fun _ => e.rootHubPortNum
    let (err, ports) := c.ports.onCommandCompletion e.issuerType dev true e.isConnected
    (err, { c with ports })

inductive Event where
  | configurePort (port : Fin 256) (isConnected : Bool)
  | portStatusChange (port : Fin 256) (r : PortReads)
  | commandCompletion (e : CommandCompletion)
  | transfer (slotId : Nat) (r : TransferReads)

def step : Event → Option Controller
  | .configurePort port isConnected =>
    if port = 0 then none else some { c with ports := (c.ports.configurePort port isConnected).2 }
  | .portStatusChange port r =>
    if port = 0 then none else some { c with ports := (c.ports.onPortStatusChange port r).2 }
  | .commandCompletion e => some (c.onCommandCompletion e).2
  | .transfer slotId r =>
    some { c with ports := (c.ports.onTransfer ((c.devmgr.findBySlot slotId).map fun _ => r)).2 }

def system : Transition.System Controller Event := ⟨step⟩

variable {c} {c' : Controller} {e : Event} {scratchpad : Option Nat}

/-- The event as the ports see it. -/
def portsEvent (c : Controller) : Event → Xhci.Event
  | .configurePort port isConnected => .configurePort port isConnected
  | .portStatusChange port r => .portStatusChange port r
  | .commandCompletion e => .commandCompletion e.issuerType
      ((c.devmgr.findBySlot e.slotId).map fun _ => e.rootHubPortNum)
      (((c.devmgr.allocDevice e.slotId e.alloc).2.findBySlot e.slotId).isSome ||
        decide (e.issuerType ≠ EnableSlotCommandTRB.Type)) e.isConnected
  | .transfer slotId r => .transfer ((c.devmgr.findBySlot slotId).map fun _ => r)

/-- The ports of the controller go through the phases that they have on their own. -/
theorem ports_step (h : c.step e = some c') : c.ports.step (c.portsEvent e) = some c'.ports := by
  cases e with
  | configurePort port isConnected =>
    obtain ⟨hport, h⟩ := Option.ite_none_left_eq_some.mp h
    cases h
    exact if_neg hport
  | portStatusChange port r =>
    obtain ⟨hport, h⟩ := Option.ite_none_left_eq_some.mp h
    cases h
    exact if_neg hport
  | transfer slotId r =>
    cases h
    rfl
  | commandCompletion e =>
    cases h
    refine congrArg some ?_
    simp only [Ports.onCommandCompletion, onCommandCompletion]
    split
    · rename_i htype
      split
      · rfl
      · simp only [addressDevice, htype, ne_eq, not_true_eq_false, decide_false, Bool.or_false]
        cases hfound : (c.devmgr.allocDevice e.slotId e.alloc).2.findBySlot e.slotId with
        | none => rfl
        | some dev => rfl
    · rfl

/-! ## Entry 0 -/

/-- The event is the completion of an Enable Slot command that makes `AllocDevice` create a device in slot 0,
or in another slot although the command failed. -/
def CreatesWrongly (c : Controller) : Event → Prop
  | .commandCompletion e =>
    e.issuerType = EnableSlotCommandTRB.Type ∧
      c.ports.portConfigPhase c.ports.addressingPort = .kEnablingSlot ∧
      (e.slotId = 0 ∨ e.completionCode ≠ kSuccessCode) ∧ e.slotId ≤ c.devmgr.maxSlots ∧
      c.devmgr.devices e.slotId = none ∧ e.alloc.isSome
  | _ => False

/-- The event is the completion of an Enable Slot command that failed. -/
def FailedEnableSlot : Event → Prop
  | .commandCompletion e =>
    e.issuerType = EnableSlotCommandTRB.Type ∧ e.completionCode ≠ kSuccessCode
  | _ => False

/-- Entry 0 is the one of the scratchpad, and there is no device in slot 0. -/
structure Keeps (scratchpad : Option Nat) (c : Controller) : Prop where
  pointer : c.devmgr.deviceContextPointers 0 = scratchpad.getD 0
  slot : c.devmgr.devices 0 = none

/-- The step keeps entry 0, and creates no device for a command that failed. -/
structure Survives (scratchpad : Option Nat) (c : Controller) (e : Event) (c' : Controller) : Prop where
  keeps : Keeps scratchpad c'
  created : FailedEnableSlot e → ∀ slot, c.devmgr.devices slot = none → c'.devmgr.devices slot = none

theorem Keeps.init (scratchpad : Option Nat) : Keeps scratchpad (Initialize scratchpad) := by
  cases scratchpad with
  | none => exact ⟨rfl, rfl⟩
  | some a => exact ⟨rfl, rfl⟩

/-- A step that leaves the device manager alone. -/
theorem Keeps.survives (K : Keeps scratchpad c) (h : c'.devmgr = c.devmgr) :
    Survives scratchpad c e c' :=
  ⟨⟨h ▸ K.pointer, h ▸ K.slot⟩, fun _ _ hslot => h ▸ hslot⟩

/-- `AddressDevice` for a slot that is out of range, or that has no device and gets none, changes nothing. -/
theorem addressDevice_of_not_found {portId : Fin 256} {slotId : Nat} {alloc : Option DeviceManager.Device}
    (h : c.devmgr.maxSlots < slotId ∨ c.devmgr.devices slotId = none ∧ alloc = none) :
    (c.addressDevice portId slotId alloc).2.devmgr = c.devmgr := by
  have halloc : (c.devmgr.allocDevice slotId alloc).2 = c.devmgr := by
    rw [DeviceManager.allocDevice]
    split
    · rfl
    · rename_i hrange
      obtain ⟨hnone, rfl⟩ := h.resolve_left hrange
      simp only [hnone, Option.isSome_none, Bool.false_eq_true, if_false]
      rw [← hnone, Function.update_eq_self]
  have hfind : c.devmgr.findBySlot slotId = none := by
    rw [DeviceManager.findBySlot]
    split
    · rfl
    · rename_i hrange
      exact (h.resolve_left hrange).1
  simp only [addressDevice, halloc, hfind]

/-- `AddressDevice` for a slot that has a device, or gets one, writes its entry. -/
theorem addressDevice_of_found {portId : Fin 256} {slotId : Nat}
    {alloc : Option DeviceManager.Device} {dev : DeviceManager.Device}
    (hrange : slotId ≤ c.devmgr.maxSlots)
    (h : c.devmgr.devices slotId = some dev ∨ c.devmgr.devices slotId = none ∧ alloc = some dev) :
    (c.addressDevice portId slotId alloc).2.devmgr = { c.devmgr with
      devices := Function.update c.devmgr.devices slotId (some dev)
      deviceContextPointers :=
        Function.update c.devmgr.deviceContextPointers slotId dev.deviceContext } := by
  have halloc : (c.devmgr.allocDevice slotId alloc).2 =
      { c.devmgr with devices := Function.update c.devmgr.devices slotId (some dev) } := by
    rw [DeviceManager.allocDevice, if_neg (Nat.not_lt.mpr hrange)]
    rcases h with hsome | ⟨hnone, rfl⟩
    · simp only [hsome, Option.isSome_some, if_true]
      rw [← hsome, Function.update_eq_self]
    · simp only [hnone, Option.isSome_none, Bool.false_eq_true, if_false]
  simp only [addressDevice, halloc, DeviceManager.findBySlot, DeviceManager.loadDCBAA,
    if_neg (Nat.not_lt.mpr hrange), Function.update_self]
  rfl

/-- A step survives if and only if it does not create a device where it should not. -/
theorem survives_iff (K : Keeps scratchpad c) (h : c.step e = some c') :
    Survives scratchpad c e c' ↔ ¬CreatesWrongly c e := by
  cases e with
  | configurePort port isConnected =>
    obtain ⟨-, h⟩ := Option.ite_none_left_eq_some.mp h
    cases h
    exact iff_of_true (K.survives rfl) id
  | portStatusChange port r =>
    obtain ⟨-, h⟩ := Option.ite_none_left_eq_some.mp h
    cases h
    exact iff_of_true (K.survives rfl) id
  | transfer slotId r =>
    cases h
    exact iff_of_true (K.survives rfl) id
  | commandCompletion e =>
    cases h
    by_cases htype : e.issuerType = EnableSlotCommandTRB.Type
    · by_cases hphase : c.ports.portConfigPhase c.ports.addressingPort = .kEnablingSlot
      · have hresult : (c.onCommandCompletion e).2 =
            (c.addressDevice c.ports.addressingPort e.slotId e.alloc).2 := by
          rw [onCommandCompletion, if_pos htype, if_neg (not_not.mpr hphase)]
        rw [hresult]
        by_cases hrange : c.devmgr.maxSlots < e.slotId
        · exact iff_of_true (K.survives (addressDevice_of_not_found (.inl hrange)))
            fun h => Nat.not_lt.mpr h.2.2.2.1 hrange
        have hle := Nat.not_lt.mp hrange
        cases hdev : c.devmgr.devices e.slotId with
        | some dev =>
          -- the slot has a device already, so it is not slot 0
          have hslot : e.slotId ≠ 0 := fun h0 => by
            rw [h0, K.slot] at hdev
            cases hdev
          have hfound : (c.addressDevice c.ports.addressingPort e.slotId e.alloc).2.devmgr = _ :=
            addressDevice_of_found hle (.inl hdev)
          rw [← hdev, Function.update_eq_self] at hfound
          refine iff_of_true ⟨⟨?_, ?_⟩, fun _ slot hslot' => ?_⟩ fun h => by
            rw [h.2.2.2.2.1] at hdev
            cases hdev
          · rw [hfound]
            exact (Function.update_of_ne hslot.symm ..).trans K.pointer
          · rw [hfound]
            exact K.slot
          · rw [hfound]
            exact hslot'
        | none =>
          cases halloc : e.alloc with
          | none =>
            exact iff_of_true (K.survives (addressDevice_of_not_found (.inr ⟨hdev, rfl⟩))) fun h => by
              have hsome := h.2.2.2.2.2
              rw [halloc] at hsome
              cases hsome
          | some dev =>
            have hfound : (c.addressDevice c.ports.addressingPort e.slotId (some dev)).2.devmgr = _ :=
              addressDevice_of_found hle (.inr ⟨hdev, rfl⟩)
            have hcreated : (c.addressDevice c.ports.addressingPort e.slotId
                (some dev)).2.devmgr.devices e.slotId = some dev := by
              rw [hfound]
              exact Function.update_self ..
            have hcreates : e.slotId = 0 ∨ e.completionCode ≠ kSuccessCode →
                CreatesWrongly c (.commandCompletion e) := fun hwrong =>
              ⟨htype, hphase, hwrong, hle, hdev, by rw [halloc]; rfl⟩
            by_cases hslot : e.slotId = 0
            · refine iff_of_false (fun h => ?_) (not_not.mpr (hcreates (.inl hslot)))
              have hnone := h.keeps.slot
              rw [← hslot, hcreated] at hnone
              cases hnone
            by_cases hcode : e.completionCode = kSuccessCode
            · refine iff_of_true ⟨⟨?_, ?_⟩, fun h => absurd hcode h.2⟩
                fun h => h.2.2.1.elim hslot fun hne => hne hcode
              · rw [hfound]
                exact (Function.update_of_ne (Ne.symm hslot) ..).trans K.pointer
              · rw [hfound]
                exact (Function.update_of_ne (Ne.symm hslot) ..).trans K.slot
            · refine iff_of_false (fun h => ?_) (not_not.mpr (hcreates (.inr hcode)))
              have hnone := h.created ⟨htype, hcode⟩ e.slotId hdev
              rw [hcreated] at hnone
              cases hnone
      · refine iff_of_true (K.survives ?_) fun h => hphase h.2.1
        rw [onCommandCompletion, if_pos htype, if_pos hphase]
    · refine iff_of_true (K.survives ?_) fun h => htype h.1
      rw [onCommandCompletion, if_neg htype]

/-- The condition holds for every step of the run. -/
def AllSteps (P : Controller → Event → Controller → Prop) (c : Controller) (es : List Event) : Prop :=
  ∀ pre e post t t', es = pre ++ e :: post → system.Run c pre t → t.step e = some t' → P t e t'

/-- Entry 0 survives each step of a run, and no device is created for a failed command, if and only if no
Enable Slot completion creates a device in slot 0 or with a failure code. -/
theorem survives_run_iff {es : List Event} (hrun : system.Run (Initialize scratchpad) es c) :
    AllSteps (Survives scratchpad) (Initialize scratchpad) es ↔
      AllSteps (fun t e _ => ¬CreatesWrongly t e) (Initialize scratchpad) es := by
  have hstep : ∀ P : Controller → Event → Controller → Prop, AllSteps P (Initialize scratchpad) es →
      (∀ t e t', Keeps scratchpad t → t.step e = some t' → P t e t' → Keeps scratchpad t') →
      ∀ pre e post t, es = pre ++ e :: post → system.Run (Initialize scratchpad) pre t →
        Keeps scratchpad t := by
    intro P hall hkeeps pre e post t hes hpre
    refine hpre.invariant_of_forall (I := Keeps scratchpad)
      (P := fun t e => ∀ t', t.step e = some t' → P t e t') (fun t e t' K hP hs => ?_) (.init scratchpad)
      fun pre' e' post' t hes' hpre' t' hs => ?_
    · exact hkeeps t e t' K hs (hP t' hs)
    · refine hall pre' e' (post' ++ e :: post) t t' ?_ hpre' hs
      rw [hes, hes', List.append_assoc, List.cons_append]
  constructor
  · intro hall pre e post t t' hes hpre hs
    have K := hstep _ hall (fun _ _ _ _ _ h => h.keeps) pre e post t hes hpre
    exact (survives_iff K hs).mp (hall pre e post t t' hes hpre hs)
  · intro hall pre e post t t' hes hpre hs
    have K := hstep _ hall (fun t e t' K hs h => ((survives_iff K hs).mpr h).keeps) pre e post t hes hpre
    exact (survives_iff K hs).mpr (hall pre e post t t' hes hpre hs)

/-- Port 1 is reset and enabled, and its Enable Slot command completes. -/
def enableSlotEvents (completionCode slotId : Nat) : List Event := [
  .portStatusChange 1 ⟨true, false, false⟩, .portStatusChange 1 ⟨true, true, true⟩,
  .commandCompletion ⟨9, completionCode, slotId, 1, fun _ => true, some ⟨0x3000⟩⟩]

theorem survives_run_iff_slotOne : ∃ c, system.Run (Initialize (some 0x1000)) (enableSlotEvents 1 1) c ∧
    (AllSteps (Survives (some 0x1000)) (Initialize (some 0x1000)) (enableSlotEvents 1 1) ↔
      AllSteps (fun t e _ => ¬CreatesWrongly t e) (Initialize (some 0x1000)) (enableSlotEvents 1 1)) := by
  have hrun := Transition.System.run_of_exec
    (rfl : system.exec (Initialize (some 0x1000)) (enableSlotEvents 1 1) = some _)
  exact ⟨_, hrun, survives_run_iff hrun⟩

/-- The controller has no slot left, which is completion code 9 and slot 0. -/
theorem not_survives_run : (system.exec (Initialize (some 0x1000)) (enableSlotEvents 9 0)).map
      (fun c => (c.devmgr.deviceContextPointers 0, (c.devmgr.devices 0).isSome)) =
        some (0x3000, true) ∧
    ¬AllSteps (Survives (some 0x1000)) (Initialize (some 0x1000)) (enableSlotEvents 9 0) := by
  have hexec : (system.exec (Initialize (some 0x1000)) (enableSlotEvents 9 0)).map
      (fun c => (c.devmgr.deviceContextPointers 0, (c.devmgr.devices 0).isSome)) =
        some (0x3000, true) := by decide +kernel
  refine ⟨hexec, fun hall => ?_⟩
  obtain ⟨c, hc, hpair⟩ := Option.map_eq_some_iff.mp hexec
  obtain ⟨t, ht, hlast⟩ := Option.bind_eq_some_iff.mp hc
  obtain ⟨u, hu, hlast⟩ := Option.bind_eq_some_iff.mp hlast
  obtain ⟨c', hs, hlast⟩ := Option.bind_eq_some_iff.mp hlast
  cases hlast
  have hsurvives := hall (enableSlotEvents 9 0 |>.take 2) _ [] u c rfl (.cons ht (.single hu)) hs
  have hpointer := hsurvives.keeps.pointer
  rw [(Prod.mk.inj hpair).1] at hpointer
  exact absurd hpointer (by decide)

end Controller

end MikanOS.Xhci
