import MikanOS.Error
import MikanOS.Library.Preorder
import MikanOS.Pci.ConfigSpace

/-! # The enumeration of the PCI functions

`ScanBus`, `ScanDevice` and `ScanFunction` of `pci.cpp` call each other along the bus numbers that the bridges
answer. Only the table of devices bounds the recursion. -/

namespace MikanOS.Pci

/-- A part of the scan, on `devices[0..num_device)`, with the error that it returns. `none` stands for a scan
that has not come to its end. -/
abbrev Scan := List Device → Option (Error × List Device)

/-- `devices.size()`. -/
def maxDevices : Nat := 32

/-- `AddDevice`. -/
def addDevice (device : Device) : Scan := fun devices =>
  if devices.length = maxDevices then some (.kFull, devices) else some (.kSuccess, devices ++ [device])

namespace Scan

def success : Scan := fun devices => some (.kSuccess, devices)

/-- An error of the first scan is returned at once. -/
def andThen (s t : Scan) : Scan := fun devices =>
  (s devices).bind fun r => if r.1 = .kSuccess then t r.2 else some r

def forEach {α : Type} (body : α → Scan) : List α → Scan
  | [] => success
  | x :: xs => (body x).andThen (forEach body xs)

/-- The devices of `l` are added while there is room. -/
def addAll (l devices : List Device) : Error × List Device :=
  if devices.length + l.length ≤ maxDevices then (.kSuccess, devices ++ l)
  else (.kFull, (devices ++ l).take maxDevices)

/-- With `turns` nested calls at most, the scan adds the devices of `l`, or has not come to its end, which more
entries in the table than it has turns left exclude. -/
def Adds (turns : Nat) (s : Scan) (l : List Device) : Prop :=
  ∀ devices, devices.length ≤ maxDevices → s devices = some (addAll l devices) ∨
    s devices = none ∧ turns + devices.length ≤ maxDevices

variable {turns : Nat} {s t : Scan} {l l' devices : List Device} {device : Device}

theorem addAll_of_le (h : devices.length + l.length ≤ maxDevices) :
    addAll l devices = (.kSuccess, devices ++ l) := if_pos h

theorem addAll_of_lt (h : maxDevices < devices.length + l.length) :
    addAll l devices = (.kFull, (devices ++ l).take maxDevices) := if_neg (Nat.not_le.mpr h)

theorem addAll_append : addAll l' (devices ++ l) = addAll (l ++ l') devices := by
  simp only [addAll, List.length_append, List.append_assoc, Nat.add_assoc]

theorem addAll_append_of_lt (h : maxDevices < devices.length + l.length) :
    addAll (l ++ l') devices = addAll l devices := by
  rw [addAll_of_lt h, addAll_of_lt (by rw [List.length_append]; omega), ← List.append_assoc]
  rw [List.take_append_of_le_length (by rw [List.length_append]; omega)]

theorem addAll_success_iff : (addAll l devices).1 = .kSuccess ↔ devices.length + l.length ≤ maxDevices := by
  constructor
  · intro h
    by_contra hlt
    rw [addAll_of_lt (Nat.lt_of_not_le hlt)] at h
    cases h
  · intro h
    rw [addAll_of_le h]

theorem length_addAll : (addAll l devices).2.length ≤ maxDevices := by
  rw [addAll]
  split
  · rw [List.length_append]
    assumption
  · exact List.length_take_le _ _

theorem andThen_success (h : s devices = some (.kSuccess, l)) : s.andThen t devices = t l := by
  rw [andThen, h, Option.bind_some, if_pos rfl]

theorem andThen_full (h : s devices = some (.kFull, l)) : s.andThen t devices = some (.kFull, l) := by
  rw [andThen, h, Option.bind_some]
  exact if_neg Error.noConfusion

namespace Adds

theorem success : Adds turns success [] := by
  intro devices hlen
  have hadd : addAll [] devices = (.kSuccess, devices ++ []) := addAll_of_le hlen
  rw [hadd, List.append_nil]
  exact .inl rfl

theorem out_of_turns : Adds 0 (fun _ => none) l := fun _ hlen => .inr ⟨rfl, (Nat.zero_add _).trans_le hlen⟩

theorem andThen (hs : Adds turns s l) (ht : Adds turns t l') : Adds turns (s.andThen t) (l ++ l') := by
  intro devices hlen
  rcases hs devices hlen with h | ⟨h, hturns⟩
  · rcases Nat.lt_or_ge maxDevices (devices.length + l.length) with hfull | hfit
    · rw [addAll_append_of_lt hfull]
      rw [addAll_of_lt hfull] at h ⊢
      exact .inl (andThen_full h)
    · rw [addAll_of_le hfit] at h
      rw [andThen_success h, ← addAll_append]
      rw [← List.length_append] at hfit
      refine (ht _ hfit).imp_right fun ⟨hnone, hturns⟩ => ⟨hnone, ?_⟩
      rw [List.length_append] at hturns
      omega
  · exact .inr ⟨by rw [Scan.andThen, h, Option.bind_none], hturns⟩

/-- An entry more in the table counts for a turn. -/
theorem addDevice_andThen (ht : Adds turns t l) :
    Adds (turns + 1) ((addDevice device).andThen t) (device :: l) := by
  intro devices hlen
  rcases Nat.eq_or_lt_of_le hlen with hfull | hroom
  · have hadd : addDevice device devices = some (.kFull, devices) := if_pos hfull
    have hlt : maxDevices < devices.length + (device :: l).length := by
      rw [List.length_cons]
      omega
    rw [andThen_full hadd, addAll_of_lt hlt, List.take_left' hfull]
    exact .inl rfl
  · have hadd : addDevice device devices = some (.kSuccess, devices ++ [device]) := if_neg hroom.ne
    have hcons : addAll (device :: l) devices = addAll ([device] ++ l) devices := rfl
    rw [andThen_success hadd, hcons, ← addAll_append]
    refine (ht _ (by rwa [List.length_append])).imp_right fun ⟨hnone, hturns⟩ => ⟨hnone, ?_⟩
    rw [List.length_append, List.length_singleton] at hturns
    omega

/-- A loop that skips some of its turns. -/
theorem forEach {α : Type} {body : α → Scan} {skip : α → Prop} [DecidablePred skip] {f : α → List Device}
    {xs : List α} (h : ∀ x, Adds turns (body x) (f x)) :
    Adds turns (forEach (fun x => if skip x then .success else body x) xs)
      ((xs.filter fun x => ¬ skip x).flatMap f) := by
  induction xs with
  | nil => exact success
  | cons x xs ih =>
    by_cases hx : skip x
    · rw [List.filter_cons_of_neg (by simpa using hx), Scan.forEach, if_pos hx]
      exact success.andThen ih
    · rw [List.filter_cons_of_pos (by simpa using hx), List.flatMap_cons, Scan.forEach, if_neg hx]
      exact (h x).andThen ih

/-- With more turns than the table has entries the scan comes to its end. -/
theorem eq_some (h : Adds turns s l) (hturns : maxDevices < turns) : s [] = some (addAll l []) := by
  rcases h [] (Nat.zero_le _) with h | ⟨-, hle⟩
  · exact h
  · exact absurd hle (Nat.not_le.mpr hturns)

end Adds

end Scan

/-- The place of a function: bus, device and function number. -/
abbrev Location := BitVec 8 × BitVec 8 × BitVec 8

/-- The numbers that the loops go through. -/
def deviceNumbers : List (BitVec 8) := (List.range 32).map (BitVec.ofNat 8)
def functionNumbers : List (BitVec 8) := (List.range 8).map (BitVec.ofNat 8)

/-- `IsSingleFunctionDevice`. -/
def isSingleFunctionDevice (headerType : BitVec 8) : Bool := headerType &&& 0x80 = 0

/-- `class_code.Match(0x06u, 0x04u)`. -/
def ClassCode.isBridge (classCode : ClassCode) : Bool := classCode.base = 0x06 ∧ classCode.sub = 0x04

namespace ConfigSpace

variable (conf : ConfigSpace)

/-- The device that `ScanFunction` adds. -/
def deviceAt (loc : Location) : Device :=
  ⟨loc.1, loc.2.1, loc.2.2, conf.readHeaderType loc.1 loc.2.1 loc.2.2,
    conf.readClassCode loc.1 loc.2.1 loc.2.2⟩

def secondaryBus (loc : Location) : BitVec 8 :=
  (conf.readBusNumbers loc.1 loc.2.1 loc.2.2 >>> 8).setWidth 8

/-- `ScanFunction`, with `ScanBus` as a parameter. -/
def scanFunction (scanBus : BitVec 8 → Scan) (loc : Location) : Scan :=
  (addDevice (conf.deviceAt loc)).andThen
    (if (conf.deviceAt loc).classCode.isBridge then scanBus (conf.secondaryBus loc) else .success)

/-- `ScanDevice`. -/
def scanDevice (scanBus : BitVec 8 → Scan) (bus device : BitVec 8) : Scan :=
  (conf.scanFunction scanBus (bus, device, 0)).andThen
    (if isSingleFunctionDevice (conf.readHeaderType bus device 0) then .success
    else .forEach (fun function =>
      if conf.readVendorId bus device function = 0xffff then .success
      else conf.scanFunction scanBus (bus, device, function)) functionNumbers.tail)

/-- `ScanBus`, with at most `turns` calls inside each other. -/
def scanBus : Nat → BitVec 8 → Scan
  | 0, _ => fun _ => none
  | turns + 1, bus => .forEach (fun device =>
      if conf.readVendorId bus device 0 = 0xffff then .success
      else conf.scanDevice (scanBus turns) bus device) deviceNumbers

/-- `ScanAllBus`. -/
def scanAllBus (turns : Nat) : Option (Error × List Device) :=
  (if isSingleFunctionDevice (conf.readHeaderType 0 0 0) then conf.scanBus turns 0
  else .forEach (fun function =>
    if conf.readVendorId 0 0 function = 0xffff then .success
    else conf.scanBus turns function) functionNumbers) []

/-- The functions of a device. -/
def functionsOf (bus device : BitVec 8) : List Location :=
  (bus, device, 0) :: if isSingleFunctionDevice (conf.readHeaderType bus device 0) then []
    else (functionNumbers.tail.filter fun function => conf.readVendorId bus device function ≠ 0xffff).map
      fun function => (bus, device, function)

/-- The functions of a bus. -/
def functionsOn (bus : BitVec 8) : List Location :=
  (deviceNumbers.filter fun device => conf.readVendorId bus device 0 ≠ 0xffff).flatMap
    (conf.functionsOf bus)

/-- The bus behind a bridge. -/
def busBehind (loc : Location) : Option (BitVec 8) :=
  if (conf.deviceAt loc).classCode.isBridge then some (conf.secondaryBus loc) else none

/-- A function and those behind it. -/
def visit (n : Nat) (loc : Location) : List Device :=
  (loc :: (conf.busBehind loc).elim [] (Preorder.preorder conf.functionsOn conf.busBehind n)).map
    conf.deviceAt

/-- The functions from a bus on. -/
def visitBus (n : Nat) (bus : BitVec 8) : List Device :=
  (Preorder.preorder conf.functionsOn conf.busBehind n bus).map conf.deviceAt

variable {conf} {turns n : Nat} {bus device : BitVec 8} {loc : Location}

theorem visitBus_succ : conf.visitBus (n + 1) bus = (conf.functionsOn bus).flatMap (conf.visit n) := by
  rw [visitBus, Preorder.preorder, List.map_flatMap]
  rfl

theorem adds_scanFunction {scanBus : BitVec 8 → Scan}
    (h : ∀ bus, (scanBus bus).Adds turns (conf.visitBus n bus)) :
    (conf.scanFunction scanBus loc).Adds (turns + 1) (conf.visit n loc) := by
  rw [scanFunction, visit, List.map_cons]
  refine .addDevice_andThen ?_
  by_cases hbridge : (conf.deviceAt loc).classCode.isBridge
  · rw [if_pos hbridge, busBehind, if_pos hbridge]
    exact h _
  · rw [if_neg hbridge, busBehind, if_neg hbridge]
    exact .success

theorem adds_scanDevice {scanBus : BitVec 8 → Scan}
    (h : ∀ bus, (scanBus bus).Adds turns (conf.visitBus n bus)) :
    (conf.scanDevice scanBus bus device).Adds (turns + 1)
      ((conf.functionsOf bus device).flatMap (conf.visit n)) := by
  rw [scanDevice, functionsOf, List.flatMap_cons]
  refine (adds_scanFunction h).andThen ?_
  split
  · exact .success
  · rw [List.flatMap_map]
    exact .forEach fun function => adds_scanFunction h

theorem adds_scanBus (h : turns ≤ n) : (conf.scanBus turns bus).Adds turns (conf.visitBus n bus) := by
  induction turns generalizing n bus with
  | zero => exact .out_of_turns
  | succ turns ih =>
    obtain ⟨n, rfl⟩ := Nat.exists_eq_add_one_of_ne_zero (Nat.ne_zero_of_lt h)
    rw [visitBus_succ, functionsOn, List.flatMap_assoc, scanBus]
    exact .forEach fun device => adds_scanDevice fun bus => ih (Nat.le_of_succ_le_succ h)

/-- What `ScanAllBus` looks for. -/
def visitAll (conf : ConfigSpace) (n : Nat) : List Device :=
  if isSingleFunctionDevice (conf.readHeaderType 0 0 0) then conf.visitBus n 0
  else (functionNumbers.filter fun function => conf.readVendorId 0 0 function ≠ 0xffff).flatMap
    (conf.visitBus n)

theorem scanAllBus_eq (hturns : maxDevices < turns) (hn : turns ≤ n) :
    conf.scanAllBus turns = some (Scan.addAll (conf.visitAll n) []) := by
  rw [scanAllBus, visitAll]
  refine Scan.Adds.eq_some ?_ hturns
  split
  · exact adds_scanBus hn
  · exact .forEach fun function => adds_scanBus hn

/-! ## Functions that are reached -/

variable (conf) in
/-- There is a function: the device answers, and the function is the first one, or answers in a device with
several functions. -/
def Present (loc : Location) : Prop :=
  loc.2.1.toNat < 32 ∧ loc.2.2.toNat < 8 ∧ conf.readVendorId loc.1 loc.2.1 0 ≠ 0xffff ∧
    (loc.2.2 = 0 ∨ isSingleFunctionDevice (conf.readHeaderType loc.1 loc.2.1 0) = false ∧
      conf.readVendorId loc.1 loc.2.1 loc.2.2 ≠ 0xffff)

variable (conf) in
/-- Bridges lead from bus 0 to the bus. -/
inductive ReachableBus : BitVec 8 → Prop
  | root : ReachableBus 0
  | behind (loc : Location) : ReachableBus loc.1 → conf.Present loc →
    (conf.deviceAt loc).classCode.isBridge → ReachableBus (conf.secondaryBus loc)

variable (conf) in
def Reachable (loc : Location) : Prop := conf.ReachableBus loc.1 ∧ conf.Present loc

variable (conf) in
/-- The secondary bus numbers form a tree: each bridge has one of its own, other than the root's. -/
structure BusTree : Prop where
  unique : ∀ loc loc', conf.Reachable loc → conf.Reachable loc' → (conf.deviceAt loc).classCode.isBridge →
    (conf.deviceAt loc').classCode.isBridge → conf.secondaryBus loc = conf.secondaryBus loc' → loc = loc'
  root : ∀ loc, conf.Reachable loc → (conf.deviceAt loc).classCode.isBridge → conf.secondaryBus loc ≠ 0

theorem mem_deviceNumbers {v : BitVec 8} : v ∈ deviceNumbers ↔ v.toNat < 32 := by
  revert v
  decide +kernel

theorem mem_functionNumbers_tail {v : BitVec 8} : v ∈ functionNumbers.tail ↔ v.toNat < 8 ∧ v ≠ 0 := by
  revert v
  decide +kernel

theorem mem_functionsOf : loc ∈ conf.functionsOf bus device ↔ loc.1 = bus ∧ loc.2.1 = device ∧
    (loc.2.2 = 0 ∨ isSingleFunctionDevice (conf.readHeaderType bus device 0) = false ∧
      (loc.2.2.toNat < 8 ∧ loc.2.2 ≠ 0) ∧ conf.readVendorId bus device loc.2.2 ≠ 0xffff) := by
  obtain ⟨b, d, f⟩ := loc
  rw [functionsOf, List.mem_cons]
  split
  · next hsingle =>
    simp only [hsingle, List.not_mem_nil, or_false, Prod.mk.injEq, Bool.true_eq_false, false_and]
  · next hmulti =>
    rw [List.mem_map]
    simp only [List.mem_filter, mem_functionNumbers_tail, decide_eq_true_iff, Prod.mk.injEq]
    constructor
    · rintro (⟨rfl, rfl, rfl⟩ | ⟨f, ⟨hf, hvendor⟩, rfl, rfl, rfl⟩)
      · exact ⟨rfl, rfl, .inl rfl⟩
      · exact ⟨rfl, rfl, .inr ⟨by simpa using hmulti, hf, hvendor⟩⟩
    · rintro ⟨rfl, rfl, rfl | ⟨-, hf, hvendor⟩⟩
      · exact .inl ⟨rfl, rfl, rfl⟩
      · exact .inr ⟨f, ⟨hf, hvendor⟩, rfl, rfl, rfl⟩

theorem mem_functionsOn : loc ∈ conf.functionsOn bus ↔ loc.1 = bus ∧ conf.Present loc := by
  rw [functionsOn, List.mem_flatMap]
  simp only [List.mem_filter, mem_deviceNumbers, decide_eq_true_iff, mem_functionsOf]
  constructor
  · rintro ⟨device, ⟨hdevice, hvendor⟩, rfl, rfl, hfunction⟩
    refine ⟨rfl, hdevice, ?_, hvendor, hfunction.imp_right fun ⟨h, _, h'⟩ => ⟨h, h'⟩⟩
    rcases hfunction with h | ⟨-, ⟨h, -⟩, -⟩
    · rw [h]
      decide
    · exact h
  · rintro ⟨rfl, hdevice, hfunction, hvendor, h⟩
    refine ⟨loc.2.1, ⟨hdevice, hvendor⟩, rfl, rfl, ?_⟩
    by_cases hzero : loc.2.2 = 0
    · exact .inl hzero
    · obtain ⟨hmulti, hanswer⟩ := h.resolve_left hzero
      exact .inr ⟨hmulti, ⟨hfunction, hzero⟩, hanswer⟩

theorem busBehind_eq_some : conf.busBehind loc = some bus ↔
    (conf.deviceAt loc).classCode.isBridge ∧ conf.secondaryBus loc = bus := by
  rw [busBehind, Option.ite_none_right_eq_some, Option.some.injEq]

theorem reachableBus_iff :
    conf.ReachableBus bus ↔ ∃ n, Preorder.Path conf.functionsOn conf.busBehind 0 n bus := by
  constructor
  · intro h
    induction h with
    | root => exact ⟨0, .refl⟩
    | behind loc _ hpresent hbridge ih =>
      obtain ⟨n, hn⟩ := ih
      exact ⟨n + 1, .snoc hn (mem_functionsOn.mpr ⟨rfl, hpresent⟩) (busBehind_eq_some.mpr ⟨hbridge, rfl⟩)⟩
  · rintro ⟨n, hn⟩
    induction hn with
    | refl => exact .root
    | snoc _ hloc hbus ih =>
      obtain ⟨rfl, hpresent⟩ := mem_functionsOn.mp hloc
      obtain ⟨hbridge, rfl⟩ := busBehind_eq_some.mp hbus
      exact .behind _ ih hpresent hbridge

theorem reached_iff : Preorder.Reached conf.functionsOn conf.busBehind 0 loc ↔ conf.Reachable loc := by
  constructor
  · rintro ⟨n, bus, hn, hloc⟩
    obtain ⟨rfl, hpresent⟩ := mem_functionsOn.mp hloc
    exact ⟨reachableBus_iff.mpr ⟨n, hn⟩, hpresent⟩
  · rintro ⟨hbus, hpresent⟩
    obtain ⟨n, hn⟩ := reachableBus_iff.mp hbus
    exact ⟨n, loc.1, hn, mem_functionsOn.mpr ⟨rfl, hpresent⟩⟩

theorem nodup_functionsOf : (conf.functionsOf bus device).Nodup := by
  rw [functionsOf]
  split
  · exact List.nodup_singleton _
  · have hnumbers : functionNumbers.tail.Nodup := by decide
    have hinj : Function.Injective fun function : BitVec 8 => (bus, device, function) := fun f f' h =>
      (Prod.mk.inj (Prod.mk.inj h).2).2
    refine List.nodup_cons.mpr ⟨fun hmem => ?_, (hnumbers.filter _).map hinj⟩
    obtain ⟨f, hf, heq⟩ := List.mem_map.mp hmem
    have hzero : f = 0 := hinj heq
    exact (mem_functionNumbers_tail.mp (List.mem_filter.mp hf).1).2 hzero

theorem nodup_functionsOn : (conf.functionsOn bus).Nodup := by
  have hnumbers : deviceNumbers.Nodup := by decide
  rw [functionsOn, List.nodup_flatMap]
  refine ⟨fun device _ => nodup_functionsOf, (hnumbers.filter _).imp fun hne loc hloc hloc' => hne ?_⟩
  exact (mem_functionsOf.mp hloc).2.1.symm.trans (mem_functionsOf.mp hloc').2.1

theorem BusTree.isTree (h : conf.BusTree) : Preorder.IsTree conf.functionsOn conf.busBehind 0 where
  nodup := fun _ => nodup_functionsOn
  source := fun _ _ _ he he' => (mem_functionsOn.mp he).1.symm.trans (mem_functionsOn.mp he').1
  unique := fun e e' b he he' hb hb' => by
    obtain ⟨hbridge, rfl⟩ := busBehind_eq_some.mp hb
    obtain ⟨hbridge', heq⟩ := busBehind_eq_some.mp hb'
    exact h.unique e e' (reached_iff.mp he) (reached_iff.mp he') hbridge hbridge' heq.symm
  root := fun e he hb => by
    obtain ⟨hbridge, heq⟩ := busBehind_eq_some.mp hb
    exact h.root e (reached_iff.mp he) hbridge heq

/-- The place of a device that is stored. -/
def location (dev : Device) : Location := (dev.bus, dev.device, dev.function)

theorem map_location_visitBus : (conf.visitBus n bus).map location =
    Preorder.preorder conf.functionsOn conf.busBehind n bus := by
  rw [visitBus, List.map_map]
  exact List.map_id _

/-- More turns than the table has entries make no difference. -/
theorem scanAllBus_unique {turns' : Nat} (h : maxDevices < turns) (h' : maxDevices < turns') :
    conf.scanAllBus turns = conf.scanAllBus turns' := by
  rw [scanAllBus_eq h (le_max_left turns turns'), scanAllBus_eq h' (le_max_right turns turns')]

theorem ncard_reachable {l : List Location} (hnd : l.Nodup) (hmem : ∀ loc, loc ∈ l ↔ conf.Reachable loc) :
    {loc | conf.Reachable loc}.ncard = l.length := by
  have hset : {loc | conf.Reachable loc} = (l.toFinset : Set Location) :=
    Set.ext fun loc => (hmem loc).symm.trans List.mem_toFinset.symm
  rw [hset, Set.ncard_coe_finset, List.toFinset_card_of_nodup hnd]

/-- For every content the scan ends with one result, and with a bus tree it finds the reachable functions. -/
theorem scanAllBus_ends (conf : ConfigSpace) : ∃ result,
    (∀ turns, maxDevices < turns → conf.scanAllBus turns = some result) ∧ result.2.length ≤ maxDevices ∧
      (isSingleFunctionDevice (conf.readHeaderType 0 0 0) → conf.BusTree →
        (result.1 = .kSuccess ↔ {loc | conf.Reachable loc}.ncard ≤ maxDevices) ∧
        (result.1 = .kSuccess → (result.2.map location).Nodup ∧
          ∀ dev, dev ∈ result.2 ↔ ∃ loc, conf.Reachable loc ∧ dev = conf.deviceAt loc)) := by
  have hcomplete : ∃ N, ∀ n ≥ N, ∀ loc, loc ∈ Preorder.preorder conf.functionsOn conf.busBehind n 0 ↔
      Preorder.Reached conf.functionsOn conf.busBehind 0 loc := Preorder.exists_complete 0
  obtain ⟨N, hN⟩ := hcomplete
  let n := max N (maxDevices + 1)
  have hfirst : conf.scanAllBus (maxDevices + 1) = some (Scan.addAll (conf.visitAll n) []) :=
    scanAllBus_eq (Nat.lt_succ_self _) (le_max_right _ _)
  refine ⟨Scan.addAll (conf.visitAll n) [], fun turns hturns => ?_, Scan.length_addAll,
    fun hsingle htree => ?_⟩
  · rw [scanAllBus_unique hturns (Nat.lt_succ_self maxDevices), hfirst]
  · rw [visitAll, if_pos hsingle]
    have hnd : (Preorder.preorder conf.functionsOn conf.busBehind n 0).Nodup :=
      htree.isTree.nodup_preorder .refl
    have hmem : ∀ loc, loc ∈ Preorder.preorder conf.functionsOn conf.busBehind n 0 ↔ conf.Reachable loc :=
      fun loc => (hN n (le_max_left _ _) loc).trans reached_iff
    have hcard := ncard_reachable hnd hmem
    have hlen : (conf.visitBus n 0).length =
        (Preorder.preorder conf.functionsOn conf.busBehind n 0).length := List.length_map _
    have hsuccess : (Scan.addAll (conf.visitBus n 0) []).1 = .kSuccess ↔
        (conf.visitBus n 0).length ≤ maxDevices := by
      rw [Scan.addAll_success_iff, List.length_nil, Nat.zero_add]
    refine ⟨by rw [hsuccess, hcard, hlen], fun h => ?_⟩
    have hlist : Scan.addAll (conf.visitBus n 0) [] = (.kSuccess, conf.visitBus n 0) :=
      Scan.addAll_of_le (by rw [List.length_nil, Nat.zero_add]; exact hsuccess.mp h)
    rw [hlist, map_location_visitBus]
    refine ⟨hnd, fun dev => ?_⟩
    rw [visitBus, List.mem_map]
    exact exists_congr fun loc => and_congr (hmem loc) eq_comm

end ConfigSpace

end MikanOS.Pci
