import MikanOS.Usb.Descriptors

/-! # The walk over the descriptors

The length bytes lead from one descriptor to the next one, up to the end of the buffer or to a
descriptor of length 0, where the walk comes to a stop without an end. Whether `InitializePhase2` ends,
and whether it keeps to the buffer, are questions about the descriptors on this walk. -/

namespace MikanOS.Usb

variable (m : FlatMemory.Memory) (fin : Int)

/-- The descriptors before `fin` that follow the one at `p`, up to the first of length 0. -/
def descriptorsFrom : Nat → Nat → List Nat
  | 0, _ => []
  | fuel + 1, p =>
    if m p ≠ 0 ∧ ((p + (m p).toNat : Nat) : Int) < fin then
      (p + (m p).toNat) :: descriptorsFrom fuel (p + (m p).toNat)
    else []

def descriptors (p : Nat) : List Nat := descriptorsFrom m fin (fin - p).toNat p

/-- The last one. -/
def lastDescriptor (p : Nat) : Nat := (descriptors m fin p).getLastD p

/-- An endpoint descriptor. -/
def IsEndpoint (desc : Nat) : Prop := m (desc + 1) = EndpointDescriptor.kType

/-- An interface descriptor with a class driver. -/
def Supported (desc : Nat) : Prop :=
  m (desc + 1) = InterfaceDescriptor.kType ∧ (NewClassDriver m desc).2.isSome

instance : DecidablePred (IsEndpoint m) := fun desc =>
  inferInstanceAs (Decidable (m (desc + 1) = EndpointDescriptor.kType))

instance : DecidablePred (Supported m) := fun desc =>
  inferInstanceAs (Decidable (_ ∧ _))

variable {m fin}

theorem toNat_pos {p : Nat} (h : m p ≠ 0) : 0 < (m p).toNat :=
  Nat.pos_of_ne_zero fun h' => h (UInt8.toNat_inj.mp h')

/-- More turns than bytes make no difference. -/
theorem descriptorsFrom_eq {fuel fuel' p : Nat} (h : (fin - p).toNat ≤ fuel)
    (h' : (fin - p).toNat ≤ fuel') : descriptorsFrom m fin fuel p = descriptorsFrom m fin fuel' p := by
  induction fuel generalizing fuel' p with
  | zero =>
    cases fuel' with
    | zero => rfl
    | succ fuel' =>
      rw [descriptorsFrom, descriptorsFrom, if_neg]
      rintro ⟨-, hlt⟩
      omega
  | succ fuel ih =>
    cases fuel' with
    | zero =>
      rw [descriptorsFrom, descriptorsFrom, if_neg]
      rintro ⟨-, hlt⟩
      omega
    | succ fuel' =>
      rw [descriptorsFrom, descriptorsFrom]
      by_cases hnext : m p ≠ 0 ∧ ((p + (m p).toNat : Nat) : Int) < fin
      · have := toNat_pos hnext.1
        rw [if_pos hnext, if_pos hnext]
        exact congrArg _ (ih (by omega) (by omega))
      · rw [if_neg hnext, if_neg hnext]

theorem descriptors_cons {p : Nat} (h : m p ≠ 0) (hlt : ((p + (m p).toNat : Nat) : Int) < fin) :
    descriptors m fin p = (p + (m p).toNat) :: descriptors m fin (p + (m p).toNat) := by
  have hpos := toNat_pos h
  rw [descriptors, descriptorsFrom_eq (Nat.le_refl _) (Nat.le_succ _), descriptorsFrom,
    if_pos ⟨h, hlt⟩, descriptors, descriptorsFrom_eq (by omega) (Nat.le_refl _)]

theorem descriptors_nil {p : Nat} (h : m p = 0 ∨ fin ≤ ((p + (m p).toNat : Nat) : Int)) :
    descriptors m fin p = [] := by
  rw [descriptors, descriptorsFrom_eq (Nat.le_refl _) (Nat.le_succ _), descriptorsFrom, if_neg]
  rintro ⟨hne, hlt⟩
  exact h.elim hne fun hle => absurd hlt (Int.not_lt.mpr hle)

theorem lastDescriptor_cons {p : Nat} (h : m p ≠ 0)
    (hlt : ((p + (m p).toNat : Nat) : Int) < fin) :
    lastDescriptor m fin p = lastDescriptor m fin (p + (m p).toNat) := by
  rw [lastDescriptor, descriptors_cons h hlt, List.getLastD_cons, ← lastDescriptor]

theorem lastDescriptor_nil {p : Nat} (h : m p = 0 ∨ fin ≤ ((p + (m p).toNat : Nat) : Int)) :
    lastDescriptor m fin p = p := by
  rw [lastDescriptor, descriptors_nil h, List.getLastD_nil]

/-- Induction along the walk. -/
theorem walk_induction (m : FlatMemory.Memory) (fin : Int) {P : Nat → Prop}
    (zero : ∀ p, m p = 0 → P p)
    (past : ∀ p, m p ≠ 0 → fin ≤ ((p + (m p).toNat : Nat) : Int) → P p)
    (next : ∀ p, m p ≠ 0 → ((p + (m p).toNat : Nat) : Int) < fin → P (p + (m p).toNat) → P p)
    (p : Nat) : P p := by
  induction hk : (fin - p).toNat using Nat.strong_induction_on generalizing p with
  | _ k ih =>
    by_cases h : m p = 0
    · exact zero p h
    · rcases lt_or_ge ((p + (m p).toNat : Nat) : Int) fin with hlt | hge
      · have := toNat_pos h
        exact next p h hlt (ih _ (by omega) _ rfl)
      · exact past p h hge

namespace Phase2

/-! ## One turn -/

/-- A loop is running, with the reader at `p` and `num` endpoints counted. -/
structure At (buf : Nat) (len : Int) (loop : Loop) (p num : Nat) (s : Phase2) : Prop where
  result : s.result = none
  loop_eq : s.loop = loop
  reader : s.configReader = ⟨buf, len, p⟩
  num_eq : s.numEpConfigs = num

variable {buf p num ifDesc : Nat} {len : Int} {classDriver : ClassDriver} {loop : Loop} {s : Phase2}

theorem At.turn_interfaces (H : At buf len .interfaces p num s) : s.turn m = s.interfaceTurn m := by
  rw [turn, H.result, Option.isSome_none, if_neg Bool.false_ne_true, H.loop_eq]

theorem At.turn_endpoints (H : At buf len (.endpoints ifDesc classDriver) p num s) :
    s.turn m = s.endpointTurn m ifDesc classDriver := by
  rw [turn, H.result, Option.isSome_none, if_neg Bool.false_ne_true, H.loop_eq]

theorem cast_pos {kType : UInt8} {desc : Nat} (h : m (desc + 1) = kType) :
    DescriptorDynamicCast m kType (some desc) = ([.read (desc + 1) 1], some desc) := by
  rw [DescriptorDynamicCast, if_pos (by exact h)]
  rfl

theorem cast_neg {kType : UInt8} {desc : Nat} (h : m (desc + 1) ≠ kType) :
    DescriptorDynamicCast m kType (some desc) = ([.read (desc + 1) 1], none) := by
  rw [DescriptorDynamicCast, if_neg (by exact h)]
  rfl

theorem At.next_lt (H : At buf len loop p num s)
    (h : ((p + (m p).toNat : Nat) : Int) < buf + len) :
    s.configReader.next m =
      ([.read p 1], some (p + (m p).toNat), ⟨buf, len, p + (m p).toNat⟩) := by
  rw [H.reader, ConfigurationDescriptorReader.next]
  simp only [if_pos h]

theorem At.next_ge (H : At buf len loop p num s)
    (h : buf + len ≤ ((p + (m p).toNat : Nat) : Int)) :
    s.configReader.next m = ([.read p 1], none, ⟨buf, len, p + (m p).toNat⟩) := by
  rw [H.reader, ConfigurationDescriptorReader.next]
  simp only [if_neg (Int.not_lt.mpr h)]

/-- No more interfaces: the function returns. -/
theorem interfaces_past (H : At buf len .interfaces p num s)
    (h : buf + len ≤ ((p + (m p).toNat : Nat) : Int)) :
    (s.turn m).1 = [.read p 1] ∧ (s.step m).result.isSome := by
  rw [step, H.turn_interfaces, interfaceTurn, H.next_ge h]
  exact ⟨rfl, rfl⟩

/-- What is looked at of a descriptor in the loop over the interfaces. -/
def headReads (m : FlatMemory.Memory) (desc : Nat) : List Access :=
  .read (desc + 1) 1 :: if m (desc + 1) = InterfaceDescriptor.kType then
    logInterface desc ++ (NewClassDriver m desc).1 else []

theorem interfaces_next (H : At buf len .interfaces p num s)
    (h : ((p + (m p).toNat : Nat) : Int) < buf + len) :
    (s.turn m).1 = .read p 1 :: headReads m (p + (m p).toNat) ∧
    (¬Supported m (p + (m p).toNat) → At buf len .interfaces (p + (m p).toNat) num (s.step m)) ∧
    (Supported m (p + (m p).toNat) → ∃ classDriver,
      At buf len (.endpoints (p + (m p).toNat) classDriver) (p + (m p).toNat) 0 (s.step m)) := by
  rw [step, H.turn_interfaces, interfaceTurn, H.next_lt h, headReads]
  by_cases htype : m (p + (m p).toNat + 1) = InterfaceDescriptor.kType
  · simp only [cast_pos htype, if_pos htype]
    cases hdriver : (NewClassDriver m (p + (m p).toNat)).2 with
    | none =>
      have hnot : ¬Supported m (p + (m p).toNat) := by
        rintro ⟨-, h⟩
        rw [hdriver] at h
        cases h
      exact ⟨rfl, fun _ => ⟨H.result, H.loop_eq, rfl, H.num_eq⟩, fun h => absurd h hnot⟩
    | some classDriver =>
      have hsupported : Supported m (p + (m p).toNat) := ⟨htype, by rw [hdriver]; rfl⟩
      exact ⟨rfl, fun h => absurd hsupported h, fun _ => ⟨classDriver, H.result, rfl, rfl, rfl⟩⟩
  · simp only [cast_neg htype, if_neg htype]
    exact ⟨rfl, fun _ => ⟨H.result, H.loop_eq, rfl, H.num_eq⟩, fun h => absurd h.1 htype⟩

/-- All endpoints of the interface are there: the function goes on to `SetConfiguration`. -/
theorem endpoints_done (H : At buf len (.endpoints ifDesc classDriver) p num s)
    (hnum : (m (ifDesc + 4)).toNat ≤ num) :
    (s.turn m).1 = [.read (ifDesc + 4) 1, .read (buf + 5) 1] ∧ (s.step m).result.isSome := by
  rw [step, H.turn_endpoints, endpointTurn, H.num_eq, if_neg (Nat.not_lt.mpr hnum), H.reader]
  exact ⟨rfl, rfl⟩

/-- What is looked at of a descriptor in the loop over the endpoints. -/
def endpointReads (m : FlatMemory.Memory) (num desc : Nat) : List Access :=
  if IsEndpoint m desc then
    .read (desc + 1) 1 :: ((MakeEPConfig m desc).1 ++ [.writeEpConfig num])
  else .read (desc + 1) 1 :: .read (desc + 1) 1 ::
    if m (desc + 1) = HIDDescriptor.kType then logHID m desc else []

theorem endpoints_next (H : At buf len (.endpoints ifDesc classDriver) p num s)
    (hnum : num < (m (ifDesc + 4)).toNat) (h : ((p + (m p).toNat : Nat) : Int) < buf + len) :
    (s.turn m).1 =
      .read (ifDesc + 4) 1 :: .read p 1 :: endpointReads m num (p + (m p).toNat) ∧
    At buf len (.endpoints ifDesc classDriver) (p + (m p).toNat)
      (if IsEndpoint m (p + (m p).toNat) then num + 1 else num) (s.step m) := by
  rw [step, H.turn_endpoints, endpointTurn, H.num_eq, if_pos hnum, H.next_lt h, endpointReads]
  by_cases htype : IsEndpoint m (p + (m p).toNat)
  · rw [if_pos htype, if_pos htype]
    simp only [cast_pos htype]
    exact ⟨rfl, H.result, H.loop_eq, rfl, rfl⟩
  · rw [if_neg htype, if_neg htype]
    simp only [cast_neg htype]
    by_cases hhid : m (p + (m p).toNat + 1) = HIDDescriptor.kType
    · simp only [cast_pos hhid, if_pos hhid]
      exact ⟨rfl, H.result, H.loop_eq, rfl, rfl⟩
    · simp only [cast_neg hhid, if_neg hhid]
      exact ⟨rfl, H.result, H.loop_eq, rfl, rfl⟩

/-- Past the end `Next` gives the null pointer, and the loop goes on with it. -/
theorem endpoints_past (H : At buf len (.endpoints ifDesc classDriver) p num s)
    (hnum : num < (m (ifDesc + 4)).toNat) (h : buf + len ≤ ((p + (m p).toNat : Nat) : Int)) :
    (.readNull 1 1 : Access) ∈ (s.turn m).1 ∧
    At buf len (.endpoints ifDesc classDriver) (p + (m p).toNat) num (s.step m) := by
  have hcast (kType : UInt8) :
      DescriptorDynamicCast m kType none = ([.readNull 1 1], none) := by
    rw [DescriptorDynamicCast, ite_self]
    rfl
  rw [step, H.turn_endpoints, endpointTurn, H.num_eq, if_pos hnum, H.next_ge h]
  simp only [hcast]
  exact ⟨by simp, H.result, H.loop_eq, rfl, rfl⟩

/-! ## Whether it ends -/

theorem ends_iff_step (h : s.result = none) : s.Ends m ↔ (s.step m).Ends m := by
  constructor
  · rintro ⟨n, hn⟩
    cases n with
    | zero =>
      rw [Function.iterate_zero_apply, h] at hn
      cases hn
    | succ n => exact ⟨n, by rwa [Function.iterate_succ_apply] at hn⟩
  · rintro ⟨n, hn⟩
    exact ⟨n + 1, by rwa [Function.iterate_succ_apply]⟩

theorem ends_of_step (h : (s.step m).result.isSome) : s.Ends m := ⟨1, h⟩

theorem not_ends_of_invariant {I : Phase2 → Prop}
    (hI : ∀ s, I s → s.result = none ∧ I (s.step m)) (h : I s) : ¬s.Ends m := by
  have hrun (n : Nat) : I ((step m)^[n] s) := by
    induction n with
    | zero => exact h
    | succ n ih =>
      rw [Function.iterate_succ_apply']
      exact (hI _ ih).2
  rintro ⟨n, hn⟩
  rw [(hI _ (hrun n)).1] at hn
  cases hn

/-- At an endpoint descriptor of length 0 every turn counts it again. -/
theorem ends_of_zero_endpoint (hzero : m p = 0) (hp : (p : Int) < buf + len)
    (hep : IsEndpoint m p) (H : At buf len (.endpoints ifDesc classDriver) p num s) :
    s.Ends m := by
  have hq : p + (m p).toNat = p := by
    rw [hzero]
    rfl
  induction hk : (m (ifDesc + 4)).toNat - num generalizing num s with
  | zero => exact ends_of_step (endpoints_done H (Nat.sub_eq_zero_iff_le.mp hk)).2
  | succ k ih =>
    have hnext := (endpoints_next (m := m) H (by omega) (by rwa [hq])).2
    rw [hq, if_pos hep] at hnext
    exact (ends_iff_step H.result).mpr (ih hnext (by omega))

theorem ends_endpoints (hp : (p : Int) < buf + len)
    (H : At buf len (.endpoints ifDesc classDriver) p num s) :
    s.Ends m ↔
      (m (ifDesc + 4)).toNat ≤ num + (descriptors m (buf + len) p).countP (IsEndpoint m ·) ∨
      m (lastDescriptor m (buf + len) p) = 0 ∧ IsEndpoint m (lastDescriptor m (buf + len) p) := by
  have hdone (h : (m (ifDesc + 4)).toNat ≤ num) : s.Ends m := ends_of_step (endpoints_done H h).2
  induction p using walk_induction m (buf + len) generalizing s num with
  | zero p hzero =>
    rw [lastDescriptor_nil (.inl hzero), descriptors_nil (.inl hzero), List.countP_nil,
      Nat.add_zero]
    have hq : p + (m p).toNat = p := by
      rw [hzero]
      rfl
    by_cases hep : IsEndpoint m p
    · exact ⟨fun _ => .inr ⟨hzero, hep⟩, fun _ => ends_of_zero_endpoint hzero hp hep H⟩
    · refine ⟨fun hends => .inl (Nat.not_lt.mp fun hlt => ?_), fun h => hdone (h.resolve_right ?_)⟩
      · refine not_ends_of_invariant (I := At buf len (.endpoints ifDesc classDriver) p num)
          (fun s H => ⟨H.result, ?_⟩) H hends
        have hnext := (endpoints_next H hlt (by rwa [hq])).2
        rwa [hq, if_neg hep] at hnext
      · exact fun h => hep h.2
  | past p hne hge =>
    rw [lastDescriptor_nil (.inr hge), descriptors_nil (.inr hge), List.countP_nil, Nat.add_zero]
    refine ⟨fun hends => .inl (Nat.not_lt.mp fun hlt => ?_), fun h => hdone (h.resolve_right ?_)⟩
    · -- the reader goes on behind the end
      refine not_ends_of_invariant (I := fun s => ∃ p, buf + len ≤ ((p + (m p).toNat : Nat) : Int) ∧
        At buf len (.endpoints ifDesc classDriver) p num s) (fun s H => ?_) ⟨p, hge, H⟩ hends
      obtain ⟨p, hge, H⟩ := H
      refine ⟨H.result, _, ?_, (endpoints_past H hlt hge).2⟩
      omega
    · exact fun h => hne h.1
  | next p hne hlt ih =>
    rw [lastDescriptor_cons hne hlt, descriptors_cons hne hlt, List.countP_cons]
    rcases Nat.lt_or_ge num (m (ifDesc + 4)).toNat with hnum | hnum
    · have hnext := (endpoints_next H hnum hlt).2
      refine (ends_iff_step H.result).trans
        ((ih hlt hnext fun h => ends_of_step (endpoints_done hnext h).2).trans ?_)
      by_cases hep : IsEndpoint m (p + (m p).toNat)
      · simp only [hep, if_true, decide_true]
        rw [Nat.add_assoc, Nat.add_comm 1]
      · simp only [hep, if_false, decide_false, Bool.false_eq_true, Nat.add_zero]
    · exact ⟨fun _ => .inl (hnum.trans (Nat.le_add_right ..)), fun _ => hdone hnum⟩

/-- The loops end: the walk does not stop at a descriptor of length 0 before an interface with a class
driver, and behind that one there are as many endpoint descriptors as it announces. -/
def Ending (m : FlatMemory.Memory) (fin : Int) (p : Nat) : Prop :=
  match (descriptors m fin p).find? (Supported m ·) with
  | none => ¬(m (lastDescriptor m fin p) = 0 ∧ (lastDescriptor m fin p : Int) < fin)
  | some ifDesc =>
    (m (ifDesc + 4)).toNat ≤ (descriptors m fin ifDesc).countP (IsEndpoint m ·) ∨
      m (lastDescriptor m fin ifDesc) = 0 ∧ IsEndpoint m (lastDescriptor m fin ifDesc)

theorem ends_interfaces (hp : ¬Supported m p) (H : At buf len .interfaces p num s) :
    s.Ends m ↔ Ending m (buf + len) p := by
  rw [Ending]
  induction p using walk_induction m (buf + len) generalizing s with
  | zero p hzero =>
    rw [lastDescriptor_nil (.inl hzero), descriptors_nil (.inl hzero), List.find?_nil]
    have hq : p + (m p).toNat = p := by
      rw [hzero]
      rfl
    rcases lt_or_ge (p : Int) (buf + len) with hlt | hge
    · refine ⟨fun hends => absurd hends ?_, fun h => absurd ⟨hzero, hlt⟩ h⟩
      refine not_ends_of_invariant (I := At buf len .interfaces p num) (fun s H => ⟨H.result, ?_⟩) H
      have hnext := (interfaces_next H (by rwa [hq])).2.1
      rw [hq] at hnext
      exact hnext hp
    · exact ⟨fun _ h => absurd h.2 (Int.not_lt.mpr hge),
        fun _ => ends_of_step (interfaces_past H (by rwa [hq])).2⟩
  | past p hne hge =>
    rw [lastDescriptor_nil (.inr hge), descriptors_nil (.inr hge), List.find?_nil]
    exact ⟨fun _ h => hne h.1, fun _ => ends_of_step (interfaces_past H hge).2⟩
  | next p hne hlt ih =>
    rw [lastDescriptor_cons hne hlt, descriptors_cons hne hlt]
    obtain ⟨-, hskip, henter⟩ := interfaces_next H hlt
    by_cases hsupported : Supported m (p + (m p).toNat)
    · obtain ⟨classDriver, H'⟩ := henter hsupported
      rw [List.find?_cons_of_pos (by exact decide_eq_true hsupported)]
      refine (ends_iff_step H.result).trans ((ends_endpoints hlt H').trans ?_)
      rw [Nat.zero_add]
    · rw [List.find?_cons_of_neg (by simpa using hsupported)]
      exact (ends_iff_step H.result).trans (ih hsupported (hskip hsupported))

end Phase2

end MikanOS.Usb
