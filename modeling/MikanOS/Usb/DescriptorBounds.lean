import MikanOS.Usb.DescriptorWalk

/-! # Reads inside the buffer

Which buffers `InitializePhase2` reads without leaving them. Each descriptor that it looks at has to lie
in the buffer with the fields that its type has, the announced endpoints have to be there, and no more
than `ep_configs_` has room for. -/

namespace MikanOS.Usb

variable (m : FlatMemory.Memory) (fin : Int)

/-- What is read of a descriptor in the search for an interface is there. -/
structure HeadFits (desc : Nat) : Prop where
  type : (desc + 2 : Int) ≤ fin
  interface : m (desc + 1) = InterfaceDescriptor.kType → (desc + 8 : Int) ≤ fin

/-- What is read of a descriptor behind an interface is there. -/
structure EndpointFits (desc : Nat) : Prop where
  type : (desc + 2 : Int) ≤ fin
  endpoint : IsEndpoint m desc → (desc + 7 : Int) ≤ fin
  hid : m (desc + 1) = HIDDescriptor.kType → (desc + 6 + 3 * (m (desc + 5)).toNat : Int) ≤ fin

/-- The descriptors up to the first interface with a class driver. -/
def scanned : List Nat → List Nat
  | [] => []
  | desc :: descs => desc :: if Supported m desc then [] else scanned descs

/-- The descriptors up to the one that is endpoint number `k`. -/
def visited : List Nat → Nat → List Nat
  | [], _ => []
  | desc :: descs, k =>
    if k = 0 then [] else desc :: visited descs (if IsEndpoint m desc then k - 1 else k)

/-- The descriptors behind an interface, when `num` of its `k` endpoints are counted. -/
structure EndpointsFit (p k num : Nat) : Prop where
  fits : ∀ desc ∈ visited m (descriptors m fin p) (k - num), EndpointFits m fin desc
  enough : k ≤ num + (descriptors m fin p).countP (IsEndpoint m ·) ∨ m (lastDescriptor m fin p) = 0
  room : k ≤ 16 ∨ num + (descriptors m fin p).countP (IsEndpoint m ·) ≤ 16 ∧
    m (lastDescriptor m fin p) = 0 ∧ ¬IsEndpoint m (lastDescriptor m fin p)

/-- The descriptors of a configuration. -/
structure ConfigurationFits (buf : Nat) : Prop where
  heads : ∀ desc ∈ scanned m (descriptors m fin buf), HeadFits m fin desc
  endpoints : ∀ ifDesc, (descriptors m fin buf).find? (Supported m ·) = some ifDesc →
    EndpointsFit m fin ifDesc (m (ifDesc + 4)).toNat 0

section

variable {m} {fin} {p k num : Nat}

theorem visited_zero (descs : List Nat) : visited m descs 0 = [] := by
  cases descs with
  | nil => rfl
  | cons desc descs => rw [visited, if_pos rfl]

/-- No more endpoints are wanted. -/
theorem endpointsFit_of_le (hk : k ≤ num) (hnum : num ≤ 16) : EndpointsFit m fin p k num where
  fits desc h := by
    rw [Nat.sub_eq_zero_of_le hk, visited_zero] at h
    exact absurd h List.not_mem_nil
  enough := .inl (hk.trans (Nat.le_add_right ..))
  room := .inl (hk.trans hnum)

theorem endpointsFit_cons (hp : m p ≠ 0) (hlt : ((p + (m p).toNat : Nat) : Int) < fin)
    (hnum : num < k) : EndpointsFit m fin p k num ↔
      EndpointFits m fin (p + (m p).toNat) ∧
      EndpointsFit m fin (p + (m p).toNat) k
        (if IsEndpoint m (p + (m p).toNat) then num + 1 else num) := by
  have hvisited : visited m (descriptors m fin p) (k - num) = (p + (m p).toNat) ::
      visited m (descriptors m fin (p + (m p).toNat))
        (k - if IsEndpoint m (p + (m p).toNat) then num + 1 else num) := by
    rw [descriptors_cons hp hlt, visited, if_neg (by omega)]
    split <;> rfl
  have hcount : num + (descriptors m fin p).countP (IsEndpoint m ·) =
      (if IsEndpoint m (p + (m p).toNat) then num + 1 else num) +
        (descriptors m fin (p + (m p).toNat)).countP (IsEndpoint m ·) := by
    rw [descriptors_cons hp hlt, List.countP_cons]
    by_cases hep : IsEndpoint m (p + (m p).toNat)
    · simp only [hep, if_true, decide_true]
      omega
    · simp only [hep, if_false, decide_false, Bool.false_eq_true, Nat.add_zero]
  have hlast := lastDescriptor_cons hp hlt
  constructor
  · intro H
    have hfits := H.fits
    rw [hvisited, List.forall_mem_cons] at hfits
    exact ⟨hfits.1, hfits.2, hcount ▸ hlast ▸ H.enough, hcount ▸ hlast ▸ H.room⟩
  · rintro ⟨hfit, H⟩
    refine ⟨?_, hcount ▸ hlast ▸ H.enough, hcount ▸ hlast ▸ H.room⟩
    rw [hvisited, List.forall_mem_cons]
    exact ⟨hfit, H.fits⟩

end

namespace Phase2

/-- Nothing outside is read or written from here on. -/
def Safe (buf : Nat) (len : Int) (s : Phase2) : Prop := ∀ a, s.Accesses m a → a.Inside buf len

variable {m} {buf p num ifDesc desc : Nat} {len : Int} {classDriver : ClassDriver} {s : Phase2}

theorem safe_iff_step :
    Safe m buf len s ↔ (∀ a ∈ (s.turn m).1, a.Inside buf len) ∧ Safe m buf len (s.step m) := by
  constructor
  · intro h
    refine ⟨fun a ha => h a ⟨0, ha⟩, fun a ha => ?_⟩
    obtain ⟨n, ha⟩ := ha
    exact h a ⟨n + 1, by rwa [Function.iterate_succ_apply]⟩
  · rintro ⟨hturn, hstep⟩ a ⟨n, ha⟩
    cases n with
    | zero => exact hturn a ha
    | succ n =>
      rw [Function.iterate_succ_apply] at ha
      exact hstep a ⟨n, ha⟩

theorem safe_of_invariant {I : Phase2 → Prop}
    (hI : ∀ s, I s → (∀ a ∈ (s.turn m).1, a.Inside buf len) ∧ I (s.step m)) (h : I s) :
    Safe m buf len s := by
  have hrun (n : Nat) : I ((step m)^[n] s) := by
    induction n with
    | zero => exact h
    | succ n ih =>
      rw [Function.iterate_succ_apply']
      exact (hI _ ih).2
  rintro a ⟨n, ha⟩
  exact (hI _ (hrun n)).1 a ha

theorem safe_of_result (h : s.result.isSome) : Safe m buf len s := by
  refine safe_of_invariant (I := fun s => s.result.isSome) (fun s h => ?_) h
  rw [step, turn, if_pos h]
  exact ⟨fun a ha => absurd ha List.not_mem_nil, h⟩

theorem newClassDriver_reads : (NewClassDriver m desc).1 ⊆
    [.read (desc + 5) 1, .read (desc + 6) 1, .read (desc + 7) 1, .read (desc + 2) 1] := by
  rw [NewClassDriver]
  split_ifs
  all_goals exact List.IsPrefix.subset ⟨_, rfl⟩

/-- The turns of the search read what `HeadFits` says. -/
theorem inside_headReads (hbuf : buf ≤ desc) :
    (∀ a ∈ headReads m desc, a.Inside buf len) ↔ HeadFits m (buf + len) desc := by
  rw [headReads, List.forall_mem_cons]
  constructor
  · rintro ⟨htype, hfields⟩
    refine ⟨by have := htype.2; omega, fun h => ?_⟩
    rw [if_pos h] at hfields
    have hprotocol : (.read (desc + 7) 1 : Access) ∈ logInterface desc ++ (NewClassDriver m desc).1 :=
      List.mem_append_left _ (by simp [logInterface])
    have := (hfields _ hprotocol).2
    omega
  · intro H
    have htype := H.type
    refine ⟨⟨by omega, by omega⟩, fun a ha => ?_⟩
    by_cases h : m (desc + 1) = InterfaceDescriptor.kType
    · have hinterface := H.interface h
      rw [if_pos h] at ha
      have hread (k : Nat) (hk : k ≤ 7) : (Access.read (desc + k) 1).Inside buf len :=
        ⟨by omega, by omega⟩
      have hfields : a ∈ ([.read (desc + 5) 1, .read (desc + 6) 1, .read (desc + 7) 1,
          .read (desc + 2) 1] : List Access) := by
        rcases List.mem_append.mp ha with ha | ha
        · exact List.IsPrefix.subset ⟨_, rfl⟩ ha
        · exact newClassDriver_reads ha
      simp only [List.mem_cons, List.not_mem_nil, or_false] at hfields
      rcases hfields with rfl | rfl | rfl | rfl
      · exact hread 5 (by decide)
      · exact hread 6 (by decide)
      · exact hread 7 (by decide)
      · exact hread 2 (by decide)
    · rw [if_neg h] at ha
      exact absurd ha List.not_mem_nil

theorem inside_logHID (hbuf : buf ≤ desc) :
    (∀ a ∈ logHID m desc, a.Inside buf len) ↔
      (desc + 6 + 3 * (m (desc + 5)).toNat : Int) ≤ buf + len := by
  rw [logHID, List.forall_mem_append]
  simp only [List.forall_mem_cons, List.mem_flatMap, List.mem_range, Access.Inside]
  constructor
  · rintro ⟨⟨-, ⟨-, hnum⟩, -⟩, hclass⟩
    rcases Nat.eq_zero_or_pos (m (desc + 5)).toNat with h | h
    · omega
    · -- the last class descriptor
      have := (hclass (.read (desc + 6 + 3 * ((m (desc + 5)).toNat - 1) + 1) 2)
        ⟨(m (desc + 5)).toNat - 1, by omega, by simp⟩).2
      omega
  · intro h
    refine ⟨⟨⟨by omega, by omega⟩, ⟨by omega, by omega⟩, fun a ha => absurd ha List.not_mem_nil⟩, ?_⟩
    rintro a ⟨i, hi, ha⟩
    simp only [List.mem_cons, List.not_mem_nil, or_false] at ha
    rcases ha with rfl | rfl
    · exact ⟨by omega, by omega⟩
    · exact ⟨by omega, by omega⟩

theorem inside_endpointReads (hbuf : buf ≤ desc) :
    (∀ a ∈ endpointReads m num desc, a.Inside buf len) ↔
      EndpointFits m (buf + len) desc ∧ (IsEndpoint m desc → num < 16) := by
  rw [endpointReads]
  by_cases hep : IsEndpoint m desc
  · have hhid : m (desc + 1) ≠ HIDDescriptor.kType := by
      rw [show m (desc + 1) = _ from hep]
      decide
    rw [if_pos hep, MakeEPConfig]
    simp only [List.forall_mem_cons, List.cons_append, List.nil_append, Access.Inside]
    constructor
    · rintro ⟨htype, -, -, -, ⟨-, hinterval⟩, hroom, -⟩
      exact ⟨⟨by omega, fun _ => by omega, fun h => absurd h hhid⟩, fun _ => hroom⟩
    · rintro ⟨H, hroom⟩
      have := H.endpoint hep
      refine ⟨⟨by omega, by omega⟩, ⟨by omega, by omega⟩, ⟨by omega, by omega⟩, ⟨by omega, by omega⟩,
        ⟨by omega, by omega⟩, hroom hep, fun a ha => absurd ha List.not_mem_nil⟩
  · rw [if_neg hep, List.forall_mem_cons, List.forall_mem_cons]
    have htype : (Access.read (desc + 1) 1).Inside buf len ↔ (desc + 2 : Int) ≤ buf + len := by
      rw [Access.Inside]
      omega
    by_cases hhid : m (desc + 1) = HIDDescriptor.kType
    · rw [if_pos hhid, inside_logHID hbuf, htype]
      exact ⟨fun h => ⟨⟨h.1, fun h' => absurd h' hep, fun _ => h.2.2⟩, fun h' => absurd h' hep⟩,
        fun h => ⟨h.1.type, h.1.type, h.1.hid hhid⟩⟩
    · rw [if_neg hhid, htype]
      exact ⟨fun h => ⟨⟨h.1, fun h' => absurd h' hep, fun h' => absurd h' hhid⟩,
          fun h' => absurd h' hep⟩,
        fun h => ⟨h.1.type, h.1.type, fun a ha => absurd ha List.not_mem_nil⟩⟩

/-- Where the loop over the endpoints is, with its interface in the buffer. -/
structure Behind (m : FlatMemory.Memory) (buf : Nat) (len : Int) (ifDesc p : Nat) : Prop where
  le_ifDesc : buf ≤ ifDesc
  ifDesc_fits : (ifDesc + 8 : Int) ≤ buf + len
  le : buf ≤ p
  fits : EndpointFits m (buf + len) p

theorem Behind.inside_num (B : Behind m buf len ifDesc p) :
    (Access.read (ifDesc + 4) 1).Inside buf len := by
  have := B.le_ifDesc
  have := B.ifDesc_fits
  exact ⟨by omega, by omega⟩

theorem Behind.next (B : Behind m buf len ifDesc p)
    (h : EndpointFits m (buf + len) (p + (m p).toNat)) :
    Behind m buf len ifDesc (p + (m p).toNat) :=
  ⟨B.le_ifDesc, B.ifDesc_fits, B.le.trans (Nat.le_add_right ..), h⟩

theorem safe_done (B : Behind m buf len ifDesc p)
    (H : At buf len (.endpoints ifDesc classDriver) p num s) (hnum : (m (ifDesc + 4)).toNat ≤ num) :
    Safe m buf len s := by
  obtain ⟨hturn, hresult⟩ := endpoints_done H hnum
  have := B.le_ifDesc
  have := B.ifDesc_fits
  rw [safe_iff_step, hturn]
  refine ⟨?_, safe_of_result hresult⟩
  simp only [List.forall_mem_cons, Access.Inside]
  exact ⟨⟨by omega, by omega⟩, ⟨by omega, by omega⟩, fun a ha => absurd ha List.not_mem_nil⟩

/-- A turn that counts or passes over the next descriptor. -/
theorem inside_endpoints_next (B : Behind m buf len ifDesc p)
    (H : At buf len (.endpoints ifDesc classDriver) p num s) (hnum : num < (m (ifDesc + 4)).toNat)
    (h : ((p + (m p).toNat : Nat) : Int) < buf + len) :
    (∀ a ∈ (s.turn m).1, a.Inside buf len) ↔
      EndpointFits m (buf + len) (p + (m p).toNat) ∧
        (IsEndpoint m (p + (m p).toNat) → num < 16) := by
  have hp : (Access.read p 1).Inside buf len := by
    have := B.le
    have := B.fits.type
    exact ⟨by omega, by omega⟩
  rw [(endpoints_next H hnum h).1, List.forall_mem_cons, List.forall_mem_cons,
    inside_endpointReads (B.le.trans (Nat.le_add_right ..))]
  exact ⟨fun h => h.2.2, fun h => ⟨B.inside_num, hp, h⟩⟩

/-- Counting one endpoint of length 0 again and again keeps to `ep_configs_` up to 16 endpoints. -/
theorem safe_zero_endpoint (B : Behind m buf len ifDesc p) (hzero : m p = 0)
    (hp : (p : Int) < buf + len) (hep : IsEndpoint m p) (hnum : num ≤ 16)
    (hlt : num < (m (ifDesc + 4)).toNat)
    (H : At buf len (.endpoints ifDesc classDriver) p num s) :
    Safe m buf len s ↔ (m (ifDesc + 4)).toNat ≤ 16 := by
  have hq : p + (m p).toNat = p := by
    rw [hzero]
    rfl
  induction hk : (m (ifDesc + 4)).toNat - num generalizing num s with
  | zero => omega
  | succ k ih =>
    have hinside := inside_endpoints_next B H hlt (by rwa [hq])
    have hnext := (endpoints_next (m := m) H hlt (by rwa [hq])).2
    rw [hq] at hinside hnext
    rw [if_pos hep] at hnext
    rw [safe_iff_step, hinside]
    rcases Nat.lt_or_ge (num + 1) (m (ifDesc + 4)).toNat with hlt' | hge
    · rcases Nat.lt_or_ge num 16 with h16 | h16
      · have hrest := ih h16 hlt' hnext (by omega)
        exact ⟨fun h => hrest.mp h.2, fun h => ⟨⟨B.fits, fun _ => h16⟩, hrest.mpr h⟩⟩
      · exact ⟨fun h => absurd (h.1.2 hep) (Nat.not_lt.mpr h16), fun h => absurd h (by omega)⟩
    · exact ⟨fun h => (Nat.le_of_lt_succ (by have := h.1.2 hep; omega)),
        fun h => ⟨⟨B.fits, fun _ => by omega⟩, safe_done B hnext hge⟩⟩

theorem safe_endpoints (B : Behind m buf len ifDesc p) (hp : (p : Int) < buf + len) (hnum : num ≤ 16)
    (H : At buf len (.endpoints ifDesc classDriver) p num s) :
    Safe m buf len s ↔ EndpointsFit m (buf + len) p (m (ifDesc + 4)).toNat num := by
  induction p using walk_induction m (buf + len) generalizing s num with
  | zero p hzero =>
    rcases Nat.lt_or_ge num (m (ifDesc + 4)).toNat with hlt | hge
    · have hnil : descriptors m (buf + len) p = [] := descriptors_nil (.inl hzero)
      have hlast : lastDescriptor m (buf + len) p = p := lastDescriptor_nil (.inl hzero)
      have hfits (h : (m (ifDesc + 4)).toNat ≤ 16 ∨ num ≤ 16 ∧ ¬IsEndpoint m p) :
          EndpointsFit m (buf + len) p (m (ifDesc + 4)).toNat num := by
        refine ⟨fun desc hdesc => ?_, .inr (by rw [hlast]; exact hzero), ?_⟩
        · rw [hnil] at hdesc
          exact absurd hdesc List.not_mem_nil
        · rw [hnil, hlast]
          exact h.imp_right fun h => ⟨h.1, hzero, h.2⟩
      by_cases hep : IsEndpoint m p
      · rw [safe_zero_endpoint B hzero hp hep hnum hlt H]
        refine ⟨fun h => hfits (.inl h), fun h => h.room.resolve_right fun h => ?_⟩
        rw [hlast] at h
        exact h.2.2 hep
      · refine ⟨fun _ => hfits (.inr ⟨hnum, hep⟩), fun _ => ?_⟩
        refine safe_of_invariant (I := At buf len (.endpoints ifDesc classDriver) p num)
          (fun s H => ?_) H
        have hq : p + (m p).toNat = p := by
          rw [hzero]
          rfl
        have hinside := inside_endpoints_next B H hlt (by rwa [hq])
        have hnext := (endpoints_next H hlt (by rwa [hq])).2
        rw [hq] at hinside hnext
        rw [if_neg hep] at hnext
        exact ⟨hinside.mpr ⟨B.fits, fun h => absurd h hep⟩, hnext⟩
    · exact ⟨fun _ => endpointsFit_of_le hge hnum, fun _ => safe_done B H hge⟩
  | past p hne hge =>
    rcases Nat.lt_or_ge num (m (ifDesc + 4)).toNat with hlt | hge'
    · refine ⟨fun h => ?_, fun h => ?_⟩
      · exact (h _ ⟨0, (endpoints_past H hlt hge).1⟩).elim
      · have := h.enough
        rw [lastDescriptor_nil (.inr hge), descriptors_nil (.inr hge), List.countP_nil] at this
        exact this.elim (fun h => absurd h (Nat.not_le.mpr hlt)) fun h => absurd h hne
    · exact ⟨fun _ => endpointsFit_of_le hge' hnum, fun _ => safe_done B H hge'⟩
  | next p hne hlt ih =>
    rcases Nat.lt_or_ge num (m (ifDesc + 4)).toNat with hlt' | hge
    · have hnext := (endpoints_next H hlt' hlt).2
      rw [safe_iff_step, inside_endpoints_next B H hlt' hlt, endpointsFit_cons hne hlt hlt']
      have hroom (h : IsEndpoint m (p + (m p).toNat) → num < 16) :
          (if IsEndpoint m (p + (m p).toNat) then num + 1 else num) ≤ 16 := by
        split
        · exact h ‹_›
        · exact hnum
      constructor
      · rintro ⟨⟨hfit, h16⟩, hsafe⟩
        exact ⟨hfit, (ih (B.next hfit) hlt (hroom h16) hnext).mp hsafe⟩
      · rintro ⟨hfit, hrest⟩
        -- the entry that the turn writes is one of those that there is room for
        have h16 (hep : IsEndpoint m (p + (m p).toNat)) : num < 16 := by
          have := hrest.room
          rw [if_pos hep] at this
          rcases this with h | h
          · omega
          · have := h.1
            omega
        exact ⟨⟨hfit, h16⟩, (ih (B.next hfit) hlt (hroom h16) hnext).mpr hrest⟩
    · exact ⟨fun _ => endpointsFit_of_le hge hnum, fun _ => safe_done B H hge⟩

theorem safe_interfaces (hbuf : buf ≤ p) (hp : ¬Supported m p) (hfit : HeadFits m (buf + len) p)
    (H : At buf len .interfaces p num s) :
    Safe m buf len s ↔
      (∀ desc ∈ scanned m (descriptors m (buf + len) p), HeadFits m (buf + len) desc) ∧
      ∀ ifDesc, (descriptors m (buf + len) p).find? (Supported m ·) = some ifDesc →
        EndpointsFit m (buf + len) ifDesc (m (ifDesc + 4)).toNat 0 := by
  induction p using walk_induction m (buf + len) generalizing s with
  | zero p hzero =>
    rw [descriptors_nil (.inl hzero)]
    refine ⟨fun _ => ⟨fun desc h => absurd h List.not_mem_nil, fun ifDesc h => by cases h⟩,
      fun _ => ?_⟩
    have hlt : (p : Int) < buf + len := by
      have := hfit.type
      omega
    have hq : p + (m p).toNat = p := by
      rw [hzero]
      rfl
    refine safe_of_invariant (I := At buf len .interfaces p num) (fun s H => ?_) H
    obtain ⟨hturn, hskip, -⟩ := interfaces_next H (by rwa [hq])
    rw [hq] at hturn hskip
    refine ⟨?_, hskip hp⟩
    rw [hturn, List.forall_mem_cons]
    exact ⟨⟨hbuf, by omega⟩, (inside_headReads hbuf).mpr hfit⟩
  | past p hne hge =>
    rw [descriptors_nil (.inr hge)]
    refine ⟨fun _ => ⟨fun desc h => absurd h List.not_mem_nil, fun ifDesc h => by cases h⟩,
      fun _ => ?_⟩
    obtain ⟨hturn, hresult⟩ := interfaces_past H hge
    have := hfit.type
    rw [safe_iff_step, hturn, List.forall_mem_singleton]
    exact ⟨⟨hbuf, by omega⟩, safe_of_result hresult⟩
  | next p hne hlt ih =>
    obtain ⟨hturn, hskip, henter⟩ := interfaces_next H hlt
    have hle : buf ≤ p + (m p).toNat := hbuf.trans (Nat.le_add_right ..)
    have hinside : (∀ a ∈ (s.turn m).1, a.Inside buf len) ↔
        HeadFits m (buf + len) (p + (m p).toNat) := by
      rw [hturn, List.forall_mem_cons, inside_headReads hle]
      have := hfit.type
      exact ⟨fun h => h.2, fun h => ⟨⟨hbuf, by omega⟩, h⟩⟩
    rw [safe_iff_step, hinside, descriptors_cons hne hlt, scanned, List.forall_mem_cons]
    by_cases hsupported : Supported m (p + (m p).toNat)
    · obtain ⟨classDriver, H'⟩ := henter hsupported
      rw [List.find?_cons_of_pos (by exact decide_eq_true hsupported), if_pos hsupported]
      have hrest (hfit : HeadFits m (buf + len) (p + (m p).toNat)) :
          Safe m buf len (s.step m) ↔ EndpointsFit m (buf + len) (p + (m p).toNat)
            (m (p + (m p).toNat + 4)).toNat 0 := by
        have htype : m (p + (m p).toNat + 1) = InterfaceDescriptor.kType := hsupported.1
        refine safe_endpoints ⟨hle, hfit.interface htype, hle, hfit.type, fun h => ?_, fun h => ?_⟩
          hlt (Nat.zero_le _) H'
        · exact absurd (htype.symm.trans h) (by decide)
        · exact absurd (htype.symm.trans h) (by decide)
      constructor
      · rintro ⟨hfit, hsafe⟩
        refine ⟨⟨hfit, fun desc h => absurd h List.not_mem_nil⟩, fun ifDesc h => ?_⟩
        cases h
        exact (hrest hfit).mp hsafe
      · rintro ⟨⟨hfit, -⟩, hendpoints⟩
        exact ⟨hfit, (hrest hfit).mpr (hendpoints _ rfl)⟩
    · rw [List.find?_cons_of_neg (by simpa using hsupported), if_neg hsupported, and_assoc]
      exact and_congr_right fun hfit => ih hle hsupported hfit (hskip hsupported)

/-- What `InitializePhase2` reads and writes. -/
def InitializePhase2Accesses (m : FlatMemory.Memory) (buf : Nat) (len : Int) (a : Access) : Prop :=
  a ∈ (start m buf len).1 ∨ (start m buf len).2.Accesses m a

/-- `InitializePhase2` keeps to the `len` bytes from `buf` on, to non-null pointers and to the 16 entries of
`ep_configs_` exactly for the buffers that have the two bytes for a type and, if they hold a configuration
descriptor, for which `ConfigurationFits`. -/
theorem initializePhase2_inside (m : FlatMemory.Memory) (buf : Nat) (len : Int) :
    (∀ a, InitializePhase2Accesses m buf len a → a.Inside buf len) ↔
      2 ≤ len ∧ (m (buf + 1) = ConfigurationDescriptor.kType →
        ConfigurationFits m (buf + len) buf) := by
  have hsplit : (∀ a, InitializePhase2Accesses m buf len a → a.Inside buf len) ↔
      2 ≤ len ∧ Safe m buf len (start m buf len).2 := by
    have hstart : (start m buf len).1 = [.read (buf + 1) 1] := rfl
    have hlen : (Access.read (buf + 1) 1).Inside buf len ↔ 2 ≤ len := by
      rw [Access.Inside]
      omega
    simp only [InitializePhase2Accesses, or_imp, forall_and, hstart, List.mem_singleton,
      forall_eq, hlen, Safe]
  rw [hsplit]
  refine and_congr_right fun hlen => ?_
  rw [start]
  by_cases htype : m (buf + 1) = ConfigurationDescriptor.kType
  · have hne : m (buf + 1) ≠ InterfaceDescriptor.kType := by
      rw [htype]
      decide
    simp only [cast_pos htype]
    rw [safe_interfaces (Nat.le_refl buf) (fun h => hne h.1)
      ⟨by omega, fun h => absurd h hne⟩ ⟨rfl, rfl, rfl, rfl⟩]
    exact ⟨fun h _ => ⟨h.1, h.2⟩, fun h => ⟨(h htype).heads, (h htype).endpoints⟩⟩
  · simp only [cast_neg htype]
    exact ⟨fun _ h => absurd h htype, fun _ => safe_of_result rfl⟩

/-- A mouse that announces an endpoint and has none. -/
def noEndpoint : FlatMemory.Memory := fun a =>
  ([9, 2, 18, 0, 1, 1, 0, 0xa0, 50, 9, 4, 0, 0, 1, 3, 1, 2, 0] : List UInt8).getD (a - 0x1000) 0

/-- It makes `InitializePhase2` look for a type through the null pointer. -/
theorem not_initializePhase2_inside :
    ¬∀ m buf len a, InitializePhase2Accesses m buf len a → a.Inside buf len := by
  intro hall
  refine hall noEndpoint 0x1000 18 (.readNull 1 1) (.inr ⟨2, ?_⟩)
  decide +kernel

end Phase2

end MikanOS.Usb
