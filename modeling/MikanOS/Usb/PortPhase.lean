import MikanOS.Error
import MikanOS.Library.Transition

/-! # The phases of the root hub ports

`xhci.cpp`: every port goes through the phases of its configuration on its own, but from the reset to
the assignment of an address only one port may be at work. What the handlers read from the port
registers, the device contexts and the devices is up to the hardware and part of the event. -/

namespace MikanOS.Xhci

inductive ConfigPhase where
  | kNotConnected | kWaitingAddressed | kResettingPort | kEnablingSlot | kAddressingDevice
  | kInitializingDevice | kConfiguringEndpoints | kConfigured
  deriving DecidableEq, Repr

/-- The phases from the reset to the assignment of an address. -/
def ConfigPhase.Addressing (phase : ConfigPhase) : Prop :=
  phase = .kResettingPort ∨ phase = .kEnablingSlot ∨ phase = .kAddressingDevice

instance (phase : ConfigPhase) : Decidable phase.Addressing := inferInstanceAs (Decidable (_ ∨ _))

instance instNeZeroPorts : NeZero 256 := ⟨by decide⟩

/-- `port_config_phase` and `addressing_port`. -/
structure Ports where
  portConfigPhase : Fin 256 → ConfigPhase := fun _ => .kNotConnected
  addressingPort : Fin 256 := 0

/-- What a handler reads of the registers of a port. -/
structure PortReads where
  isConnected : Bool
  isEnabled : Bool
  isPortResetChanged : Bool

/-- The types of the commands that completion events are sent for. -/
def EnableSlotCommandTRB.Type : Nat := 9
def AddressDeviceCommandTRB.Type : Nat := 11
def ConfigureEndpointCommandTRB.Type : Nat := 12

def kSuperSpeedPlus : Nat := 5

/-- What `OnEvent` for a transfer event gets from the device: whether the device took the event, the
port in its context, whether its class driver is initialized, and what `ConfigureEndpoints` reads
then, the port once more and its speed. -/
structure TransferReads where
  err : Error
  rootHubPortNum : Fin 256
  isInitialized : Bool
  rootHubPortNum' : Fin 256
  portSpeed : Nat

namespace Ports

variable (s : Ports)

def setPhase (port : Fin 256) (phase : ConfigPhase) : Ports :=
  { s with portConfigPhase := Function.update s.portConfigPhase port phase }

def resetPort (port : Fin 256) (isConnected : Bool) : Error × Ports :=
  if !isConnected then (.kSuccess, s)
  else if s.addressingPort ≠ 0 then (.kSuccess, s.setPhase port .kWaitingAddressed)
  else
    let portPhase := s.portConfigPhase port
    if portPhase ≠ .kNotConnected ∧ portPhase ≠ .kWaitingAddressed then (.kInvalidPhase, s)
    else (.kSuccess, { s with addressingPort := port }.setPhase port .kResettingPort)

def enableSlot (port : Fin 256) (r : PortReads) : Error × Ports :=
  if r.isEnabled && r.isPortResetChanged then (.kSuccess, s.setPhase port .kEnablingSlot)
  else (.kSuccess, s)

/-- `AddressDevice`; `found` tells whether the device of the slot exists after `AllocDevice`. -/
def addressDevice (port : Fin 256) (found : Bool) : Error × Ports :=
  if !found then (.kInvalidSlotID, s) else (.kSuccess, s.setPhase port .kAddressingDevice)

def initializeDevice (port : Fin 256) (found : Bool) : Error × Ports :=
  if !found then (.kInvalidSlotID, s) else (.kSuccess, s.setPhase port .kInitializingDevice)

def completeConfiguration (port : Fin 256) (found : Bool) : Error × Ports :=
  if !found then (.kInvalidSlotID, s) else (.kSuccess, s.setPhase port .kConfigured)

def configurePort (port : Fin 256) (isConnected : Bool) : Error × Ports :=
  if s.portConfigPhase port = .kNotConnected then s.resetPort port isConnected else (.kSuccess, s)

def configureEndpoints (port : Fin 256) (portSpeed : Nat) : Error × Ports :=
  if portSpeed = 0 ∨ kSuperSpeedPlus < portSpeed then (.kUnknownXHCISpeedID, s)
  else (.kSuccess, s.setPhase port .kConfiguringEndpoints)

/-- `OnEvent` for a port status change event. -/
def onPortStatusChange (port : Fin 256) (r : PortReads) : Error × Ports :=
  match s.portConfigPhase port with
  | .kNotConnected => s.resetPort port r.isConnected
  | .kResettingPort => s.enableSlot port r
  | _ => (.kInvalidPhase, s)

/-- `OnEvent` for a transfer event; `none` if the slot has no device. -/
def onTransfer : Option TransferReads → Error × Ports
  | none => (.kInvalidSlotID, s)
  | some r =>
    if r.err ≠ .kSuccess then (r.err, s)
    else if r.isInitialized ∧ s.portConfigPhase r.rootHubPortNum = .kInitializingDevice then
      s.configureEndpoints r.rootHubPortNum' r.portSpeed
    else (.kSuccess, s)

/-- The hand-over when an address was assigned: the first waiting port is reset. -/
def resetWaiting (isConnected : Fin 256 → Bool) : Error × Ports :=
  match (List.finRange 256).find? fun i => s.portConfigPhase i = .kWaitingAddressed with
  | some i => s.resetPort i (isConnected i)
  | none => (.kSuccess, s)

/-- `OnEvent` for a command completion event. `dev` is the port in the context of the slot's device,
if the slot has one; `found` and `isConnected` are what `AddressDevice` and the hand-over read. -/
def onCommandCompletion (issuerType : Nat) (dev : Option (Fin 256)) (found : Bool)
    (isConnected : Fin 256 → Bool) : Error × Ports :=
  if issuerType = EnableSlotCommandTRB.Type then
    if s.portConfigPhase s.addressingPort ≠ .kEnablingSlot then (.kInvalidPhase, s)
    else s.addressDevice s.addressingPort found
  else if issuerType = AddressDeviceCommandTRB.Type then
    match dev with
    | none => (.kInvalidSlotID, s)
    | some port =>
      if port ≠ s.addressingPort then (.kInvalidPhase, s)
      else if s.portConfigPhase port ≠ .kAddressingDevice then (.kInvalidPhase, s)
      else
        let (err, s) := { s with addressingPort := 0 }.resetWaiting isConnected
        if err ≠ .kSuccess then (err, s) else s.initializeDevice port true
  else if issuerType = ConfigureEndpointCommandTRB.Type then
    match dev with
    | none => (.kInvalidSlotID, s)
    | some port =>
      if s.portConfigPhase port ≠ .kConfiguringEndpoints then (.kInvalidPhase, s)
      else s.completeConfiguration port true
  else (.kInvalidPhase, s)

end Ports

/-- The events with what their handlers read, and the calls of `ConfigurePort` at the start. Ports
are numbered from 1. -/
inductive Event where
  | configurePort (port : Fin 256) (isConnected : Bool)
  | portStatusChange (port : Fin 256) (r : PortReads)
  | commandCompletion (issuerType : Nat) (dev : Option (Fin 256)) (found : Bool)
      (isConnected : Fin 256 → Bool)
  | transfer (r : Option TransferReads)

namespace Ports

def step (s : Ports) : Event → Option Ports
  | .configurePort port isConnected =>
    if port = 0 then none else some (s.configurePort port isConnected).2
  | .portStatusChange port r => if port = 0 then none else some (s.onPortStatusChange port r).2
  | .commandCompletion issuerType dev found isConnected =>
    some (s.onCommandCompletion issuerType dev found isConnected).2
  | .transfer r => some (s.onTransfer r).2

def system : Transition.System Ports Event := ⟨step⟩

/-- Only the addressing port is between its reset and its address, and no port has the number 0. -/
structure Inv (s : Ports) : Prop where
  exclusive : ∀ port, (s.portConfigPhase port).Addressing → port = s.addressingPort
  zero : ¬ (s.portConfigPhase 0).Addressing
  zero_waiting : s.portConfigPhase 0 ≠ .kWaitingAddressed

variable {s s' : Ports} {port : Fin 256}

@[simp] theorem setPhase_addressingPort (phase : ConfigPhase) :
    (s.setPhase port phase).addressingPort = s.addressingPort := rfl

theorem setPhase_portConfigPhase (phase : ConfigPhase) (i : Fin 256) :
    (s.setPhase port phase).portConfigPhase i =
      if i = port then phase else s.portConfigPhase i := by
  by_cases h : i = port
  · subst h
    simp [setPhase]
  · simp [setPhase, h]

theorem setPhase_comm {i j : Fin 256} (h : i ≠ j) (phase phase' : ConfigPhase) :
    (s.setPhase i phase).setPhase j phase' = (s.setPhase j phase').setPhase i phase := by
  simp only [setPhase]
  rw [Function.update_comm h]

namespace Inv

theorem init : Inv {} where
  exclusive port h := by
    rcases h with h | h | h <;> cases h
  zero := by decide
  zero_waiting := by decide

/-- A port gets a phase that it may have. -/
theorem setPhase (h : Inv s) {phase : ConfigPhase}
    (hphase : phase.Addressing → port = s.addressingPort ∧ port ≠ 0)
    (hwaiting : phase = .kWaitingAddressed → port ≠ 0) : Inv (s.setPhase port phase) where
  exclusive i hi := by
    rw [setPhase_portConfigPhase] at hi
    split at hi
    · rename_i heq
      rw [heq]
      exact (hphase hi).1
    · exact h.exclusive i hi
  zero := by
    rw [setPhase_portConfigPhase]
    split
    · rename_i heq
      exact fun ha => (hphase ha).2 heq.symm
    · exact h.zero
  zero_waiting := by
    rw [setPhase_portConfigPhase]
    split
    · rename_i heq
      exact fun hw => hwaiting hw heq.symm
    · exact h.zero_waiting

/-- The phases outside of the exclusive part are open to every port. -/
theorem setPhase_other (h : Inv s) {phase : ConfigPhase} (hphase : ¬ phase.Addressing)
    (hwaiting : phase ≠ .kWaitingAddressed) : Inv (s.setPhase port phase) :=
  h.setPhase (fun ha => absurd ha hphase) (fun hw => absurd hw hwaiting)

/-- The token goes to a port, with nobody holding it. -/
theorem grant (h : Inv s) (hnone : ∀ i, ¬ (s.portConfigPhase i).Addressing) (hport : port ≠ 0) :
    Inv ({ s with addressingPort := port }.setPhase port .kResettingPort) where
  exclusive i hi := by
    rw [setPhase_portConfigPhase] at hi
    split at hi
    · assumption
    · exact absurd hi (hnone i)
  zero := by
    rw [setPhase_portConfigPhase, if_neg hport.symm]
    exact h.zero
  zero_waiting := by
    rw [setPhase_portConfigPhase, if_neg hport.symm]
    exact h.zero_waiting

/-- Without a holder of the token no port is in an exclusive phase. -/
theorem none_addressing (h : Inv s) (h0 : s.addressingPort = 0) (i : Fin 256) :
    ¬ (s.portConfigPhase i).Addressing := by
  intro hi
  have hi0 := (h.exclusive i hi).trans h0
  exact h.zero (hi0 ▸ hi)

theorem resetPort (h : Inv s) (hport : port ≠ 0) (isConnected : Bool) :
    Inv (s.resetPort port isConnected).2 := by
  rw [Ports.resetPort]
  split
  · exact h
  split
  · exact h.setPhase (fun ha => by rcases ha with ha | ha | ha <;> cases ha) fun _ => hport
  · rename_i h0
    simp only
    split
    · exact h
    · exact h.grant (h.none_addressing (not_not.mp h0)) hport

theorem enableSlot (h : Inv s) (hport : port ≠ 0) (hphase : s.portConfigPhase port = .kResettingPort)
    (r : PortReads) : Inv (s.enableSlot port r).2 := by
  rw [Ports.enableSlot]
  split
  · refine h.setPhase (fun _ => ⟨h.exclusive port ?_, hport⟩) fun hw => by cases hw
    exact .inl hphase
  · exact h

theorem onPortStatusChange (h : Inv s) (hport : port ≠ 0) (r : PortReads) :
    Inv (s.onPortStatusChange port r).2 := by
  rw [Ports.onPortStatusChange]
  split
  · exact h.resetPort hport r.isConnected
  · exact h.enableSlot hport (by assumption) r
  · exact h

theorem configurePort (h : Inv s) (hport : port ≠ 0) (isConnected : Bool) :
    Inv (s.configurePort port isConnected).2 := by
  rw [Ports.configurePort]
  split
  · exact h.resetPort hport isConnected
  · exact h

theorem onTransfer (h : Inv s) (r : Option TransferReads) : Inv (s.onTransfer r).2 := by
  cases r with
  | none => exact h
  | some r =>
    rw [Ports.onTransfer]
    split
    · exact h
    split
    · rw [configureEndpoints]
      split
      · exact h
      · exact h.setPhase_other (by decide) (by decide)
    · exact h

/-- The hand-over while the old holder `port` still has its phase, and the advance of that port. -/
theorem handOver (h : Inv s) (hport : port = s.addressingPort)
    (hphase : s.portConfigPhase port = .kAddressingDevice) (isConnected : Fin 256 → Bool) :
    ({ s with addressingPort := 0 }.resetWaiting isConnected).1 = .kSuccess ∧
      Inv (({ s with addressingPort := 0 }.resetWaiting isConnected).2.setPhase port
        .kInitializingDevice) := by
  -- without the old holder nobody is in an exclusive phase
  have hfree : Inv ({ s with addressingPort := 0 }.setPhase port .kInitializingDevice) := by
    refine ⟨fun i hi => ?_, ?_, ?_⟩
    all_goals rw [setPhase_portConfigPhase] at *
    · split at hi
      · rcases hi with hi | hi | hi <;> cases hi
      · rename_i hne
        exact absurd ((h.exclusive i hi).trans hport.symm) hne
    · split
      · decide
      · exact h.zero
    · split
      · decide
      · exact h.zero_waiting
  rw [resetWaiting]
  split
  · rename_i i hfind
    have hwaiting : s.portConfigPhase i = .kWaitingAddressed := by
      simpa using List.find?_some hfind
    have hne : i ≠ port := by
      rintro rfl
      rw [hphase] at hwaiting
      cases hwaiting
    have hi0 : i ≠ 0 := by
      rintro rfl
      exact h.zero_waiting hwaiting
    rw [Ports.resetPort]
    split
    · exact ⟨rfl, hfree⟩
    · simp only [ne_eq, not_true_eq_false, if_false, hwaiting, and_false, true_and]
      rw [setPhase_comm hne]
      exact hfree.grant (hfree.none_addressing rfl) hi0
  · exact ⟨rfl, hfree⟩

theorem onCommandCompletion (h : Inv s) (issuerType : Nat) (dev : Option (Fin 256)) (found : Bool)
    (isConnected : Fin 256 → Bool) :
    Inv (s.onCommandCompletion issuerType dev found isConnected).2 := by
  unfold Ports.onCommandCompletion
  split
  · split
    · exact h
    · rename_i hphase
      have hphase := not_not.mp hphase
      rw [addressDevice]
      split
      · exact h
      · refine h.setPhase (fun _ => ⟨rfl, fun h0 => h.zero ?_⟩) fun hw => by cases hw
        rw [← h0, hphase]
        decide
  split
  · cases dev with
    | none => exact h
    | some port =>
      simp only
      split
      · exact h
      split
      · exact h
      · rename_i hport hphase
        obtain ⟨herr, hinv⟩ := h.handOver (not_not.mp hport) (not_not.mp hphase) isConnected
        rw [herr, if_neg (not_not.mpr rfl)]
        exact hinv
  split
  · cases dev with
    | none => exact h
    | some port =>
      simp only
      split
      · exact h
      · exact h.setPhase_other (by decide) (by decide)
  · exact h

theorem step (h : Inv s) {e : Event} (hs : s.step e = some s') : Inv s' := by
  cases e with
  | configurePort port isConnected =>
    rw [Ports.step, Option.ite_none_left_eq_some] at hs
    obtain ⟨hport, hs⟩ := hs
    cases hs
    exact h.configurePort hport isConnected
  | portStatusChange port r =>
    rw [Ports.step, Option.ite_none_left_eq_some] at hs
    obtain ⟨hport, hs⟩ := hs
    cases hs
    exact h.onPortStatusChange hport r
  | commandCompletion issuerType dev found isConnected =>
    cases hs
    exact h.onCommandCompletion issuerType dev found isConnected
  | transfer r =>
    cases hs
    exact h.onTransfer r

theorem reachable (h : system.Reachable {} s) : Inv s :=
  h.invariant (fun _ _ _ hi hs => hi.step hs) init

end Inv

/-- At every moment at most one port is between its reset and its address: the addressing port. If
there is no addressing port, no port is. -/
theorem addressing_exclusive {es : List Event} (h : system.Run {} es s) :
    (∀ i j, (s.portConfigPhase i).Addressing → (s.portConfigPhase j).Addressing → i = j) ∧
      (∀ i, (s.portConfigPhase i).Addressing → i = s.addressingPort) ∧
      (s.addressingPort = 0 → ∀ i, ¬ (s.portConfigPhase i).Addressing) := by
  have hinv : Inv s := .reachable ⟨es, h⟩
  refine ⟨fun i j hi hj => ?_, hinv.exclusive, hinv.none_addressing⟩
  rw [hinv.exclusive i hi, hinv.exclusive j hj]

/-- Port 1 is reset and gets its slot and its address, while port 2 waits for it. -/
def twoPorts : List Event := [
  .portStatusChange 1 ⟨true, false, false⟩, .portStatusChange 2 ⟨true, false, false⟩,
  .portStatusChange 1 ⟨true, true, true⟩, .commandCompletion 9 none true fun _ => true,
  .commandCompletion 11 (some 1) true fun _ => true]

theorem addressing_exclusive_twoPorts :
    ∃ s, system.exec {} twoPorts = some s ∧ s.portConfigPhase 1 = .kInitializingDevice ∧
      s.portConfigPhase 2 = .kResettingPort ∧ s.addressingPort = 2 ∧
      ∀ i, (s.portConfigPhase i).Addressing → i = s.addressingPort := by
  refine ⟨_, rfl, by decide +kernel, by decide +kernel, by decide +kernel, ?_⟩
  have hrun := Transition.System.run_of_exec (rfl : system.exec {} twoPorts = some _)
  exact (addressing_exclusive hrun).2.1

/-! ## The hand-over -/

/-- The completion of an Address Device command that releases `addressing_port`. -/
def Releases (s : Ports) (dev : Option (Fin 256)) : Prop :=
  dev = some s.addressingPort ∧ s.portConfigPhase s.addressingPort = .kAddressingDevice

/-- A connected port has the token and is being reset. -/
def ResetsConnected (s : Ports) (isConnected : Fin 256 → Bool) : Prop :=
  isConnected s.addressingPort = true ∧ s.portConfigPhase s.addressingPort = .kResettingPort

/-- The waiting port with the lowest number is connected. -/
def FirstWaitingConnected (s : Ports) (isConnected : Fin 256 → Bool) : Prop :=
  ∀ i, s.portConfigPhase i = .kWaitingAddressed →
    (∀ j, j < i → s.portConfigPhase j ≠ .kWaitingAddressed) → isConnected i = true

/-- The hand-over finds the first waiting port. -/
theorem find_waiting {waiting : Fin 256} (hwaiting : s.portConfigPhase waiting = .kWaitingAddressed) :
    ∃ i, (List.finRange 256).find? (fun i => s.portConfigPhase i = .kWaitingAddressed) = some i ∧
      s.portConfigPhase i = .kWaitingAddressed ∧
      ∀ j, j < i → s.portConfigPhase j ≠ .kWaitingAddressed := by
  have hsome : ((List.finRange 256).find? fun i =>
      decide (s.portConfigPhase i = .kWaitingAddressed)).isSome :=
    List.find?_isSome.mpr ⟨waiting, List.mem_finRange waiting, decide_eq_true hwaiting⟩
  obtain ⟨i, hfind⟩ := Option.isSome_iff_exists.mp hsome
  obtain ⟨hi, k, hk, rfl, hbefore⟩ := List.find?_eq_some_iff_getElem.mp hfind
  refine ⟨_, hfind, of_decide_eq_true hi, fun j hj => ?_⟩
  rw [List.getElem_finRange] at hj
  have hnot := hbefore j.val hj
  rw [List.getElem_finRange] at hnot
  simpa using hnot

/-- While a port waits, the hand-over resets a connected port if and only if the first port
that waits is connected. -/
theorem onCommandCompletion_resetsConnected_iff (h : system.Reachable {} s) {dev : Option (Fin 256)}
    (hrel : s.Releases dev) (found : Bool) {isConnected : Fin 256 → Bool} {waiting : Fin 256}
    (hwaiting : s.portConfigPhase waiting = .kWaitingAddressed) :
    (s.onCommandCompletion AddressDeviceCommandTRB.Type dev found isConnected).2.ResetsConnected
      isConnected ↔ s.FirstWaitingConnected isConnected := by
  have hinv := Inv.reachable h
  obtain ⟨rfl, hphase⟩ := hrel
  obtain ⟨herr, -⟩ := hinv.handOver rfl hphase isConnected
  obtain ⟨i, hfind, hi, hbefore⟩ := find_waiting hwaiting
  have hne : i ≠ s.addressingPort := by
    rintro rfl
    rw [hphase] at hi
    cases hi
  have hport : s.addressingPort ≠ 0 := fun h0 => hinv.zero (by rw [← h0, hphase]; decide)
  have hresult : (s.onCommandCompletion AddressDeviceCommandTRB.Type (some s.addressingPort) found
      isConnected).2 = ({ s with addressingPort := 0 }.resetPort i (isConnected i)).2.setPhase
        s.addressingPort .kInitializingDevice := by
    have hreset : { s with addressingPort := 0 }.resetWaiting isConnected =
        { s with addressingPort := 0 }.resetPort i (isConnected i) := by
      rw [resetWaiting]
      simp only [hfind]
    rw [hreset] at herr
    have hother : AddressDeviceCommandTRB.Type ≠ EnableSlotCommandTRB.Type := by decide
    simp only [onCommandCompletion, if_neg hother, if_true, ne_eq, not_true_eq_false, if_false, hphase,
      hreset, herr]
    rfl
  have hfirst : s.FirstWaitingConnected isConnected ↔ isConnected i = true := by
    refine ⟨fun hall => hall i hi hbefore, fun hcon j hj hmin => ?_⟩
    rcases lt_trichotomy j i with hlt | rfl | hgt
    · exact absurd hj (hbefore j hlt)
    · exact hcon
    · exact absurd hi (hmin i hgt)
  rw [hresult, hfirst, resetPort]
  cases hcon : isConnected i with
  | false =>
    -- nobody has the token afterwards
    refine iff_of_false (fun hresets => ?_) (by decide)
    have hzero := hresets.2
    simp only [Bool.not_false, if_true, setPhase_addressingPort, setPhase_portConfigPhase,
      if_neg hport.symm] at hzero
    exact hinv.zero (.inl hzero)
  | true =>
    refine iff_of_true ⟨?_, ?_⟩ rfl
    · simp [hi, hcon]
    · simp [hi, setPhase_portConfigPhase, hne]

/-- Port 3 waits in vain, since port 2, which waits as well, is disconnected. -/
def threePorts : List Event := [
  .portStatusChange 1 ⟨true, false, false⟩, .portStatusChange 2 ⟨true, false, false⟩,
  .portStatusChange 3 ⟨true, false, false⟩, .portStatusChange 1 ⟨true, true, true⟩,
  .commandCompletion 9 none true fun _ => true]

theorem onCommandCompletion_resetsConnected_iff_threePorts :
    ∃ s, system.exec {} threePorts = some s ∧
      ((s.onCommandCompletion AddressDeviceCommandTRB.Type (some 1) true fun _ => true).2.ResetsConnected
        (fun _ => true) ↔ s.FirstWaitingConnected fun _ => true) := by
  have hexec : (system.exec {} threePorts).isSome := rfl
  obtain ⟨s, hs⟩ := Option.isSome_iff_exists.mp hexec
  have hphases : (system.exec {} threePorts).map (fun s => (s.addressingPort, s.portConfigPhase 1,
      s.portConfigPhase 3)) = some (1, .kAddressingDevice, .kWaitingAddressed) := by decide +kernel
  rw [hs, Option.map_some, Option.some.injEq, Prod.mk.injEq, Prod.mk.injEq] at hphases
  obtain ⟨hport, hphase, hwaiting⟩ := hphases
  exact ⟨s, hs, onCommandCompletion_resetsConnected_iff (Transition.System.reachable_of_exec hs)
    ⟨congrArg some hport.symm, hport.symm ▸ hphase⟩ true hwaiting⟩

theorem not_onCommandCompletion_resetsConnected : ∃ s, system.exec {} threePorts = some s ∧
    s.Releases (some 1) ∧ s.portConfigPhase 3 = .kWaitingAddressed ∧
    ¬(s.onCommandCompletion AddressDeviceCommandTRB.Type (some 1) true (· ≠ 2)).2.ResetsConnected
      (· ≠ 2) := by
  refine ⟨_, rfl, ⟨by decide +kernel, by decide +kernel⟩, by decide +kernel, fun h => ?_⟩
  exact absurd h.2 (by decide +kernel)

end Ports

end MikanOS.Xhci
