import MikanOS.Usb.ControlTransfer

/-! # Control transfers and their requests

Which of the control transfers of a run are matched with their own request. The slots of the transfer rings are
used again after a lap, but an entry of `setup_stage_map_` always leads to the slot before its own: entries
can be missing or twice there, and are never wrong. -/

namespace MikanOS.Xhci

open Usb (ArrayMap EndpointID kDefaultControlPipeID)
open RingSystem (RingInv mod_ne_of_lt)

namespace ControlSystem

/-- The TRBs of a transfer are still on the ring that `pushed` was given to. -/
structure OnRing (pushed : List TRB) (t : Transfer) : Prop where
  setup : ∃ trb, pushed[t.first]? = some trb ∧ trb.setupData = t.setupData
  issuer : ∃ trb, pushed[t.first + 1]? = some trb ∧
    (trb.trbType = DataStageTRB.Type ∨ trb.trbType = StatusStageTRB.Type)
  recent : pushed.length ≤ t.first + 31

/-- Entries are never wrong: each leads to the slot before its own. Those of the outstanding transfers
are there, and their TRBs are still on the rings. -/
structure Inv (s : ControlSystem) : Prop where
  index : ∀ i r, s.dev.transferRings i = some r → 0 ≤ i ∧ i < 31
  ring : ∀ i r, s.dev.transferRings i = some r → RingInv 31 r.buf (s.pushed i) r
  disjoint : ∀ i j r r', s.dev.transferRings i = some r → s.dev.transferRings j = some r' → i ≠ j →
    r.buf + 512 ≤ r'.buf ∨ r'.buf + 512 ≤ r.buf
  entry : ∀ k v, (some k, v) ∈ s.dev.setupStageMap.table → ∃ i r a, s.dev.transferRings i = some r ∧
    k = r.buf + 16 * ((a + 1) % 31) ∧ v = r.buf + 16 * (a % 31)
  outstanding : ∀ t ∈ s.outstanding, ∃ r, s.dev.transferRings t.index = some r ∧
    s.dev.setupStageMap.Has (r.buf + 16 * ((t.first + 1) % 31))
  onRing : ∀ t ∈ s.outstanding, OnRing (s.pushed t.index) t
  order : s.outstanding.Pairwise fun t u => t.index = u.index → t.first < u.first
  matched : s.Matched

variable {s s' : ControlSystem} {epId : EndpointID} {setupData : SetupData} {buf : BitVec 64}
  {len : BitVec 32} {issuer : Nat} {dataType : BitVec 2} {dirIn : Bool} {tr : Ring} {trb : TransferEventTRB}

theorem length_trbs : (trbs dataType dirIn setupData buf len).length = stages buf := by
  rw [trbs, stages]
  split <;> rfl

theorem OnRing.append {pushed new : List TRB} {t : Transfer} (h : OnRing pushed t)
    (hlen : pushed.length + new.length ≤ t.first + 31) : OnRing (pushed ++ new) t := by
  have happend {k : Nat} {trb : TRB} (h : pushed[k]? = some trb) : (pushed ++ new)[k]? = some trb := by
    rw [List.getElem?_append_left (List.getElem?_eq_some_iff.mp h).1]
    exact h
  obtain ⟨setup, hsetup, hdata⟩ := h.setup
  obtain ⟨issuer, hissuer, htype⟩ := h.issuer
  refine ⟨⟨setup, happend hsetup, hdata⟩, ⟨issuer, happend hissuer, htype⟩, ?_⟩
  rw [List.length_append]
  exact hlen

/-- A transfer that was just pushed. -/
theorem onRing_trbs (pushed : List TRB) (i : Int) :
    OnRing (pushed ++ trbs dataType dirIn setupData buf len) ⟨i, pushed.length, setupData⟩ := by
  have hnew (k : Nat) : (pushed ++ trbs dataType dirIn setupData buf len)[pushed.length + k]? =
      (trbs dataType dirIn setupData buf len)[k]? := by
    rw [List.getElem?_append_right (Nat.le_add_right ..), Nat.add_sub_cancel_left]
  refine ⟨?_, ?_, ?_⟩
  · refine (hnew 0).symm ▸ ?_
    rw [trbs]
    split
    · exact ⟨_, rfl, TRB.setupData_makeSetupStageTRB ..⟩
    · exact ⟨_, rfl, TRB.setupData_makeSetupStageTRB ..⟩
  · refine (hnew 1).symm ▸ ?_
    rw [trbs]
    split
    · exact ⟨_, rfl, .inl (TRB.trbType_makeDataStageTRB ..)⟩
    · exact ⟨_, rfl, .inr (TRB.trbType_statusStageTRB ..)⟩
  · rw [List.length_append, length_trbs, stages]
    split <;> simp

end ControlSystem

namespace Device

variable {dev : Device} {epId : EndpointID} {setupData : SetupData} {buf : BitVec 64} {len : BitVec 32}
  {issuer : Nat} {dataType : BitVec 2} {dirIn : Bool} {tr : Ring} {pushed : List TRB} {base : Nat}

@[simp] theorem transferRings_putWaiter : (dev.putWaiter setupData issuer).transferRings = dev.transferRings := by
  rw [putWaiter]
  split <;> rfl

@[simp] theorem setupStageMap_putWaiter : (dev.putWaiter setupData issuer).setupStageMap = dev.setupStageMap := by
  rw [putWaiter]
  split <;> rfl

theorem transferRing_ok (h : dev.transferRing epId = .ok tr) :
    dev.transferRings (epId.address - 1) = some tr := by
  rw [transferRing] at h
  split at h
  · cases h
  · cases hr : dev.transferRings (epId.address - 1) with
    | none => rw [hr] at h; cases h
    | some r => rw [hr] at h; cases h; rfl

theorem position_of_ringInv (h : RingInv 31 base pushed tr) :
    tr.position = base + 16 * (pushed.length % 31) := by
  rw [Ring.position, h.buf_eq, h.writeIndex]

/-- A transfer puts its TRBs on the ring, with an entry from the second one to the first. -/
theorem control_ok (h : dev.transferRing epId = .ok tr) (hr : RingInv 31 base pushed tr) :
    ∃ tr', RingInv 31 base (pushed ++ ControlSystem.trbs dataType dirIn setupData buf len) tr' ∧
      dev.control dataType dirIn epId setupData buf len issuer =
        ((dev.putWaiter setupData issuer).putTransfer epId tr' (base + 16 * ((pushed.length + 1) % 31))
          (base + 16 * (pushed.length % 31)), .kSuccess) := by
  have hring : (dev.putWaiter setupData issuer).transferRing epId = .ok tr := by
    rw [transferRing, transferRings_putWaiter]
    exact h
  rw [control]
  simp only [hring]
  have hsetup (transferType : BitVec 2) := hr.push (by decide) (MakeSetupStageTRB setupData transferType)
  have hposition (transferType : BitVec 2) :
      (tr.push (MakeSetupStageTRB setupData transferType)).position =
        base + 16 * ((pushed.length + 1) % 31) := by
    rw [position_of_ringInv (hsetup transferType), List.length_append, List.length_singleton]
  rw [ControlSystem.trbs]
  split
  · have hpushed := ((hsetup dataType).push (by decide) (MakeDataStageTRB buf len dirIn)).push (by decide)
      (StatusStageTRB (!dirIn) false)
    rw [List.append_assoc, List.append_assoc] at hpushed
    refine ⟨_, hpushed, ?_⟩
    rw [pushWithData]
    simp only [hposition, position_of_ringInv hr]
  · have hpushed := (hsetup kNoDataStage).push (by decide) (StatusStageTRB true true)
    rw [List.append_assoc] at hpushed
    refine ⟨_, hpushed, ?_⟩
    rw [pushNoData]
    simp only [hposition, position_of_ringInv hr]

/-- A transfer that cannot be issued. -/
theorem control_error {err : Error} (h : dev.transferRing epId = .error err) :
    dev.control dataType dirIn epId setupData buf len issuer = (dev.putWaiter setupData issuer, err) ∧
      err ≠ .kSuccess := by
  have hring : (dev.putWaiter setupData issuer).transferRing epId = .error err := by
    rw [transferRing, transferRings_putWaiter]
    exact h
  refine ⟨?_, ?_⟩
  · rw [control]
    simp only [hring]
  · rw [transferRing] at h
    split at h
    · cases h
      decide
    · cases hr : dev.transferRings (epId.address - 1) with
      | none => rw [hr] at h; cases h; decide
      | some r => rw [hr] at h; cases h

/-- The transfer rings of a device, one for each of 31 endpoints, lie apart from each other. -/
structure RingsApart (dev : Device) : Prop where
  index : ∀ i r, dev.transferRings i = some r → 0 ≤ i ∧ i < 31
  bufSize : ∀ i r, dev.transferRings i = some r → r.bufSize = 32
  disjoint : ∀ i j r r', dev.transferRings i = some r → dev.transferRings j = some r' → i ≠ j →
    r.buf + 512 ≤ r'.buf ∨ r'.buf + 512 ≤ r.buf

/-- What is in a ring is found at its address. -/
theorem trb_eq (H : RingsApart dev) {i : Int} {r : Ring} (hr : dev.transferRings i = some r) {j : Nat}
    (hj : j < 31) : dev.trb (r.buf + 16 * j) = r.slots j := by
  have hindex := H.index i r hr
  have hsize := H.bufSize i r hr
  have hhere : r.buf ≤ r.buf + 16 * j ∧ r.buf + 16 * j < r.buf + 16 * r.bufSize := by omega
  rw [Device.trb]
  cases hfind : (List.range 31).findSome? fun i : Nat => (dev.transferRings i).bind fun r' =>
      if r'.buf ≤ r.buf + 16 * j ∧ r.buf + 16 * j < r'.buf + 16 * r'.bufSize then
        some (r'.slots ((r.buf + 16 * j - r'.buf) / 16)) else none with
  | none =>
    have := List.findSome?_eq_none_iff.mp hfind i.toNat (List.mem_range.mpr (by omega))
    rw [Int.toNat_of_nonneg hindex.1, hr, Option.bind_some, if_pos hhere] at this
    cases this
  | some found =>
    obtain ⟨i', -, hfound⟩ := List.exists_of_findSome?_eq_some hfind
    obtain ⟨r', hr', hfound⟩ := Option.bind_eq_some_iff.mp hfound
    obtain ⟨hin, hfound⟩ := Option.ite_none_right_eq_some.mp hfound
    have hsize' := H.bufSize _ r' hr'
    -- the rings are apart, so that it is the same one
    have hi : i = i' := by
      refine Classical.byContradiction fun hne => ?_
      have := H.disjoint i i' r r' hr hr' hne
      omega
    rw [← hi, hr] at hr'
    cases hr'
    cases hfound
    rw [Nat.add_sub_cancel_left, Nat.mul_div_cancel_left _ (by decide), Option.getD_some]

end Device

namespace ControlSystem

variable {s s' : ControlSystem} {epId : EndpointID} {setupData : SetupData} {buf : BitVec 64}
  {len : BitVec 32} {issuer k : Nat} {dataType : BitVec 2} {dirIn : Bool} {trb : TransferEventTRB}

namespace Inv

/-- What is in a ring is found at its address. -/
theorem trb_eq (H : Inv s) {i : Int} {r : Ring} (hr : s.dev.transferRings i = some r) {j : Nat}
    (hj : j < 31) : s.dev.trb (r.buf + 16 * j) = r.slots j :=
  Device.trb_eq ⟨H.index, fun i r hr => (H.ring i r hr).bufSize, H.disjoint⟩ hr hj

/-- A transfer that cannot be issued changes nothing that matters here. -/
theorem putWaiter (H : Inv s) (setupData : SetupData) (issuer : Nat) :
    Inv { s with dev := s.dev.putWaiter setupData issuer } := by
  rw [Device.putWaiter]
  split
  · exact ⟨H.index, H.ring, H.disjoint, H.entry, H.outstanding, H.onRing, H.order, H.matched⟩
  · exact H

/-- Its TRBs go to the end of the ring and get an entry. -/
theorem putTransfer (H : Inv s) {i : Int} {tr tr' : Ring} (hi : epId.address - 1 = i)
    (htr : s.dev.transferRings i = some tr)
    (hr : RingInv 31 tr.buf (s.pushed i ++ trbs dataType dirIn setupData buf len) tr')
    (hfree : s.dev.setupStageMap.HasFree ∨
      s.dev.setupStageMap.Has (tr.buf + 16 * (((s.pushed i).length + 1) % 31)))
    (hroom : ∀ t ∈ s.outstanding, t.index = i → (s.pushed i).length + stages buf ≤ t.first + 31) :
    Inv { s with
      dev := s.dev.putTransfer epId tr' (tr.buf + 16 * (((s.pushed i).length + 1) % 31))
        (tr.buf + 16 * ((s.pushed i).length % 31))
      pushed := Function.update s.pushed i (s.pushed i ++ trbs dataType dirIn setupData buf len)
      outstanding := s.outstanding ++ [⟨i, (s.pushed i).length, setupData⟩] } := by
  -- every ring stays where it was
  have hback {j : Int} {r : Ring} (h : Function.update s.dev.transferRings i (some tr') j = some r) :
      ∃ r₀, s.dev.transferRings j = some r₀ ∧ r.buf = r₀.buf := by
    rcases eq_or_ne j i with rfl | hj
    · rw [Function.update_self] at h
      cases h
      exact ⟨tr, htr, hr.buf_eq⟩
    · rw [Function.update_of_ne hj] at h
      exact ⟨r, h, rfl⟩
  have hforth {j : Int} {r₀ : Ring} (h : s.dev.transferRings j = some r₀) :
      ∃ r, Function.update s.dev.transferRings i (some tr') j = some r ∧ r.buf = r₀.buf := by
    rcases eq_or_ne j i with rfl | hj
    · rw [htr] at h
      cases h
      exact ⟨tr', Function.update_self .., hr.buf_eq⟩
    · exact ⟨r₀, by rw [Function.update_of_ne hj, h], rfl⟩
  rw [Device.putTransfer]
  simp only [hi]
  refine ⟨fun j r h => ?_, fun j r h => ?_, fun j j' r r' h h' hne => ?_, fun key value h => ?_,
    fun t ht => ?_, fun t ht => ?_, ?_, H.matched⟩
  · obtain ⟨r₀, h₀, -⟩ := hback h
    exact H.index j r₀ h₀
  · rcases eq_or_ne j i with rfl | hj
    · simp only [Function.update_self] at h ⊢
      cases h
      rw [hr.buf_eq]
      exact hr
    · simp only [Function.update_of_ne hj] at h ⊢
      exact H.ring j r h
  · obtain ⟨r₀, h₀, hbuf⟩ := hback h
    obtain ⟨r₀', h₀', hbuf'⟩ := hback h'
    rw [hbuf, hbuf']
    exact H.disjoint j j' r₀ r₀' h₀ h₀' hne
  · rcases ArrayMap.mem_putLoop h with h | h
    · cases h
      exact ⟨i, tr', (s.pushed i).length, Function.update_self .., by rw [hr.buf_eq], by rw [hr.buf_eq]⟩
    · obtain ⟨j, r₀, a, h₀, hkey, hvalue⟩ := H.entry key value h
      obtain ⟨r, hr, hbuf⟩ := hforth h₀
      exact ⟨j, r, a, hr, by rw [hbuf, hkey], by rw [hbuf, hvalue]⟩
  · rcases List.mem_append.mp ht with ht | ht
    · obtain ⟨r₀, h₀, hkey⟩ := H.outstanding t ht
      obtain ⟨r, hr, hbuf⟩ := hforth h₀
      exact ⟨r, hr, hbuf ▸ hkey.put ..⟩
    · rw [List.mem_singleton.mp ht]
      exact ⟨tr', Function.update_self .., hr.buf_eq ▸ ArrayMap.has_put hfree _⟩
  · rcases List.mem_append.mp ht with ht | ht
    · rcases eq_or_ne t.index i with hti | hti
      · simp only [hti, Function.update_self]
        have honRing := H.onRing t ht
        rw [hti] at honRing
        exact honRing.append (by rw [length_trbs]; exact hroom t ht hti)
      · simp only [Function.update_of_ne hti]
        exact H.onRing t ht
    · rw [List.mem_singleton.mp ht]
      simp only [Function.update_self]
      exact onRing_trbs ..
  · rw [List.pairwise_append]
    refine ⟨H.order, List.pairwise_singleton .., fun t ht u hu heq => ?_⟩
    rw [List.mem_singleton.mp hu] at heq ⊢
    obtain ⟨setup, hsetup, -⟩ := (H.onRing t ht).setup
    have := (List.getElem?_eq_some_iff.mp hsetup).1
    rwa [heq] at this

theorem issue (H : Inv s) (hfits : s.FitsTransfer epId buf)
    (hs : s.issue dataType dirIn epId setupData buf len issuer = some s') : Inv s' := by
  rw [ControlSystem.issue, Option.ite_none_right_eq_some] at hs
  obtain ⟨-, hs⟩ := hs
  cases hring : s.dev.transferRing epId with
  | error err =>
    have hcontrol : s.dev.control dataType dirIn epId setupData buf len issuer = _ ∧ _ :=
      Device.control_error hring
    rw [hcontrol.1] at hs
    simp only [if_neg hcontrol.2] at hs
    cases hs
    exact H.putWaiter ..
  | ok tr =>
    have htr := Device.transferRing_ok hring
    have hr := H.ring _ tr htr
    obtain ⟨hfree, hroom⟩ := hfits tr hring
    have hcontrol : ∃ tr', _ ∧ s.dev.control dataType dirIn epId setupData buf len issuer = _ :=
      Device.control_ok hring hr
    obtain ⟨tr', hr', hcontrol⟩ := hcontrol
    rw [hcontrol] at hs
    simp only [if_true] at hs
    cases hs
    rw [hr.writeIndex, hr.bufSize, Nat.add_sub_cancel, Nat.mod_add_mod] at hfree
    have H' := H.putWaiter setupData issuer
    refine H'.putTransfer rfl ?_ hr' ?_ fun t ht hti => ?_
    · simp only [Device.transferRings_putWaiter]
      exact htr
    · simp only [Device.setupStageMap_putWaiter]
      exact hfree
    · have := hroom t ht hti
      rwa [hti, hr.bufSize] at this

/-- Outstanding transfers have different keys. -/
theorem position_ne (H : Inv s) {t u : Transfer} {r r' : Ring} {j k : Nat}
    (ht : s.outstanding[j]? = some t) (hu : s.outstanding[k]? = some u) (hne : j ≠ k)
    (hr : s.dev.transferRings t.index = some r) (hr' : s.dev.transferRings u.index = some r') :
    r.buf + 16 * ((t.first + 1) % 31) ≠ r'.buf + 16 * ((u.first + 1) % 31) := by
  intro heq
  obtain ⟨hj, ht⟩ := List.getElem?_eq_some_iff.mp ht
  obtain ⟨hk, hu⟩ := List.getElem?_eq_some_iff.mp hu
  have := Nat.mod_lt (t.first + 1) (show 0 < 31 by decide)
  have := Nat.mod_lt (u.first + 1) (show 0 < 31 by decide)
  have hindex : t.index = u.index := by
    refine Classical.byContradiction fun hindex => ?_
    have := H.disjoint _ _ r r' hr hr' hindex
    omega
  rw [hindex, hr'] at hr
  cases hr
  have hmod : (t.first + 1) % 31 = (u.first + 1) % 31 := by omega
  -- the later of two transfers is less than a lap ahead
  have hlap {t u : Transfer} (ht : t ∈ s.outstanding) (hu : u ∈ s.outstanding)
      (hindex : t.index = u.index) (hlt : t.first < u.first) :
      (t.first + 1) % 31 ≠ (u.first + 1) % 31 := by
    obtain ⟨setup, hsetup, -⟩ := (H.onRing u hu).setup
    have hlen := (List.getElem?_eq_some_iff.mp hsetup).1
    have hrecent := (H.onRing t ht).recent
    rw [hindex] at hrecent
    exact mod_ne_of_lt (by omega) (by omega)
  have hmem := ht ▸ List.getElem_mem hj
  have hmem' := hu ▸ List.getElem_mem hk
  rcases Nat.lt_or_gt_of_ne hne with hlt | hlt
  · have horder := List.pairwise_iff_getElem.mp H.order j k hj hk hlt
    rw [ht, hu] at horder
    exact hlap hmem hmem' hindex (horder hindex) hmod
  · have horder := List.pairwise_iff_getElem.mp H.order k j hk hj hlt
    rw [ht, hu] at horder
    exact hlap hmem' hmem hindex.symm (horder hindex.symm) hmod.symm

/-- What a ring holds for an outstanding transfer. -/
theorem trb_pushed (H : Inv s) {t : Transfer} {r : Ring} {data : TRB} (ht : t ∈ s.outstanding)
    (hr : s.dev.transferRings t.index = some r) {j : Nat} (hj : (s.pushed t.index)[j]? = some data)
    (hle : t.first ≤ j) : ∃ b, s.dev.trb (r.buf + 16 * (j % 31)) = data.setCycle b := by
  obtain ⟨hlt, hdata⟩ := List.getElem?_eq_some_iff.mp hj
  have hrecent := (H.onRing t ht).recent
  rw [H.trb_eq hr (Nat.mod_lt _ (by decide)), (H.ring _ r hr).slot j hlt (by omega), hdata]
  exact ⟨_, rfl⟩

/-- The event of an outstanding transfer without an error finds the entry, and through it the request. -/
theorem onTransferEventReceived (H : Inv s) {t : Transfer} (ht : t ∈ s.outstanding)
    (hcode : trb.completionCode = 1 ∨ trb.completionCode = 13)
    (hposition : s.position t = some trb.pointer) :
    ∃ buf len, s.dev.onTransferEventReceived trb =
      ({ s.dev with setupStageMap := s.dev.setupStageMap.delete trb.pointer },
        .onControlCompleted trb.endpointID t.setupData buf len) := by
  obtain ⟨r, hr, hkey⟩ := H.outstanding t ht
  have hpointer : trb.pointer = r.buf + 16 * ((t.first + 1) % 31) := by
    rw [position, hr, Option.map_some, (H.ring _ r hr).bufSize] at hposition
    exact (Option.some.inj hposition).symm
  obtain ⟨setup, hsetup, hdata⟩ := (H.onRing t ht).setup
  obtain ⟨issuer, hissuer, htype⟩ := (H.onRing t ht).issuer
  obtain ⟨b, hissuer⟩ := H.trb_pushed ht hr hissuer (Nat.le_succ _)
  obtain ⟨value, hget⟩ := hkey.get
  have hvalue : value = r.buf + 16 * (t.first % 31) := by
    obtain ⟨i, r', a, hr', hkey', hvalue⟩ := H.entry _ _ (ArrayMap.mem_of_get hget)
    have := Nat.mod_lt (t.first + 1) (show 0 < 31 by decide)
    have := Nat.mod_lt (a + 1) (show 0 < 31 by decide)
    have hindex : t.index = i := by
      refine Classical.byContradiction fun hindex => ?_
      have := H.disjoint _ _ r r' hr hr' hindex
      omega
    rw [← hindex, hr] at hr'
    cases hr'
    omega
  obtain ⟨b', hsetup⟩ := H.trb_pushed ht hr hsetup (Nat.le_refl _)
  have hnotNormal : (issuer.setCycle b).trbType ≠ NormalTRB.Type := by
    rw [TRB.trbType_setCycle]
    rcases htype with h | h
    · rw [h]
      decide
    · rw [h]
      decide
  have hok : ¬(trb.completionCode ≠ 1 ∧ trb.completionCode ≠ 13) :=
    fun h => hcode.elim h.1 h.2
  have hsame : ({ s.dev with setupStageMap := s.dev.setupStageMap.delete trb.pointer } : Device).trb value =
      setup.setCycle b' := hvalue ▸ hsetup
  rw [Device.onTransferEventReceived, if_neg hok]
  simp only [hpointer, hissuer, if_neg hnotNormal, hget]
  rw [← hpointer, hsame, TRB.setupData_setCycle, hdata]
  rcases htype with h | h
  · rw [if_pos (by rw [TRB.trbType_setCycle, h])]
    exact ⟨_, _, rfl⟩
  · rw [if_neg (by rw [TRB.trbType_setCycle, h]; decide), if_pos (by rw [TRB.trbType_setCycle, h])]
    exact ⟨_, _, rfl⟩

theorem complete (H : Inv s) (hs : s.complete k trb = some s') : Inv s' := by
  rw [ControlSystem.complete] at hs
  obtain ⟨t, ht, hs⟩ := Option.bind_eq_some_iff.mp hs
  obtain ⟨hposition, hs⟩ := Option.ite_none_right_eq_some.mp hs
  have hmem := List.mem_of_getElem? ht
  have hsub {u : Transfer} (hu : u ∈ s.outstanding.eraseIdx k) : u ∈ s.outstanding :=
    List.mem_of_mem_eraseIdx hu
  have horder := H.order.sublist (List.eraseIdx_sublist s.outstanding k)
  by_cases hcode : trb.completionCode = 1 ∨ trb.completionCode = 13
  · obtain ⟨buf, len, hreceived⟩ := H.onTransferEventReceived hmem hcode (hposition hcode)
    rw [hreceived] at hs
    cases hs
    refine ⟨H.index, H.ring, H.disjoint, fun key value h => ?_, fun u hu => ?_,
      fun u hu => H.onRing u (hsub hu), horder, fun h hh hok => ?_⟩
    · exact H.entry key value (ArrayMap.mem_deleteLoop h rfl)
    · obtain ⟨r', hr', hkey⟩ := H.outstanding u (hsub hu)
      obtain ⟨r, hr, -⟩ := H.outstanding t hmem
      obtain ⟨j, hj, hjk, rfl⟩ := List.mem_eraseIdx_iff_getElem.mp hu
      refine ⟨r', hr', hkey.delete ?_⟩
      have hpointer := hposition hcode
      rw [position, hr, Option.map_some, (H.ring _ r hr).bufSize] at hpointer
      rw [← Option.some.inj hpointer]
      exact H.position_ne (List.getElem?_eq_getElem hj) ht hjk hr' hr
    · rcases List.mem_append.mp hh with hh | hh
      · exact H.matched h hh hok
      · rw [List.mem_singleton.mp hh]
        exact ⟨buf, len, rfl⟩
  · have herr : trb.completionCode ≠ 1 ∧ trb.completionCode ≠ 13 := not_or.mp hcode
    rw [Device.onTransferEventReceived, if_pos herr] at hs
    cases hs
    refine ⟨H.index, H.ring, H.disjoint, H.entry, fun u hu => H.outstanding u (hsub hu),
      fun u hu => H.onRing u (hsub hu), horder, fun h hh hok => ?_⟩
    rcases List.mem_append.mp hh with hh | hh
    · exact H.matched h hh hok
    · rw [List.mem_singleton.mp hh] at hok
      exact absurd hok hcode

theorem step (H : Inv s) {e : Event} (hfits : s.Fits e) (hs : s.step e = some s') : Inv s' := by
  cases e with
  | controlIn epId setupData buf len issuer => exact H.issue hfits hs
  | controlOut epId setupData buf len issuer => exact H.issue hfits hs
  | complete k trb => exact H.complete hs

end Inv

/-- Where the new rings of a device may be: one for each of 31 endpoints, apart from each other. -/
structure Apart (bufs : Int → Option Nat) : Prop where
  index : ∀ i b, bufs i = some b → 0 ≤ i ∧ i < 31
  disjoint : ∀ i j b b', bufs i = some b → bufs j = some b' → i ≠ j → b + 512 ≤ b' ∨ b' + 512 ≤ b

theorem Inv.init {bufs : Int → Option Nat} (hbufs : Apart bufs) : Inv (init bufs) := by
  have hring {i : Int} {r : Ring} (h : (bufs i).map (Ring.init · 32) = some r) :
      ∃ b, bufs i = some b ∧ r = Ring.init b 32 := by
    obtain ⟨b, hb, hr⟩ := Option.map_eq_some_iff.mp h
    exact ⟨b, hb, hr.symm⟩
  refine ⟨fun i r h => ?_, fun i r h => ?_, fun i j r r' h h' hne => ?_, fun k v h => ?_,
    fun t ht => absurd ht List.not_mem_nil, fun t ht => absurd ht List.not_mem_nil, .nil,
    fun h hh => absurd hh List.not_mem_nil⟩
  · obtain ⟨b, hb, -⟩ := hring h
    exact hbufs.index i b hb
  · obtain ⟨b, -, rfl⟩ := hring h
    exact .init (by decide) b
  · obtain ⟨b, hb, rfl⟩ := hring h
    obtain ⟨b', hb', rfl⟩ := hring h'
    exact hbufs.disjoint i j b b' hb hb' hne
  · exact absurd ⟨_, h, rfl⟩ (ArrayMap.not_has_new 16 k)

/-- In a run whose transfers all fit when they are issued, every transfer event without an error is passed
on with the request of its own transfer. -/
theorem matched_of_fits {bufs : Int → Option Nat} {es : List Event} (hbufs : Apart bufs)
    (hrun : system.Run (init bufs) es s)
    (hfits : ∀ pre e post t, es = pre ++ e :: post → system.Run (init bufs) pre t → t.Fits e) :
    s.Matched :=
  (hrun.invariant_of_forall (I := Inv) (P := Fits) (fun _ _ _ H hfits hs => H.step hfits hs)
    (.init hbufs) hfits).matched

/-- A device with the default control pipe alone. -/
def onlyControlPipe (i : Int) : Option Nat := if i = 0 then some 0x1000 else none

theorem apart_onlyControlPipe : Apart onlyControlPipe := by
  have hzero {i : Int} {b : Nat} (h : onlyControlPipe i = some b) : i = 0 :=
    (Option.ite_none_right_eq_some.mp h).1
  refine ⟨fun i b h => ?_, fun i j b b' h h' hne => ?_⟩
  · rw [hzero h]
    decide
  · exact absurd ((hzero h).trans (hzero h').symm) hne

/-- The request for the device descriptor. -/
def getDeviceDescriptor : SetupData := ⟨0x80, 6, 0x100, 0, 18⟩

/-- It is answered with a short packet. -/
def answered : List Event := [
  .controlIn kDefaultControlPipeID getDeviceDescriptor 0x2000 18 0,
  .complete 0 ⟨0x1010, 10, 13, kDefaultControlPipeID⟩]

theorem matched_of_fits_answered :
    ∃ s, system.exec (init onlyControlPipe) answered = some s ∧ s.handled.length = 1 ∧ s.Matched := by
  have hexec : (system.exec (init onlyControlPipe) answered).map (·.handled.length) = some 1 := by
    decide +kernel
  obtain ⟨s, hs, hlen⟩ := Option.map_eq_some_iff.mp hexec
  refine ⟨s, hs, hlen, matched_of_fits apart_onlyControlPipe (Transition.System.run_of_exec hs)
    fun pre e post t hes hpre => ?_⟩
  rw [answered] at hes
  cases pre with
  | nil =>
    cases hes
    cases hpre
    intro tr htr
    cases htr
    exact ⟨.inl (by decide), fun t ht => absurd ht List.not_mem_nil⟩
  | cons e₀ pre =>
    cases pre with
    | nil =>
      cases hes
      exact trivial
    | cons e₁ pre =>
      have := congrArg List.length hes
      simp at this

/-- A request that the device does not answer. -/
def stalled : List Event := [
  .controlOut kDefaultControlPipeID getDeviceDescriptor 0 0 0,
  .complete 0 ⟨0x1000, 0, 6, kDefaultControlPipeID⟩]

/-- Each of 16 such requests leaves its entry behind, and for the next one there is none. -/
theorem not_matched_of_stalled :
    ¬∀ bufs es s, Apart bufs → system.Run (init bufs) es s → s.Matched := by
  intro hall
  have hexec : ((system.exec (init onlyControlPipe) ((List.replicate 16 stalled).flatten ++ [
      .controlOut kDefaultControlPipeID getDeviceDescriptor 0 0 0,
      .complete 0 ⟨0x1020, 0, 1, kDefaultControlPipeID⟩])).bind (·.handled.getLast?)).map
        (fun h => (h.event.completionCode, h.completion)) =
      some (1, .failed .kNoCorrespondingSetupStage) := by decide +kernel
  obtain ⟨h, hh, hlast⟩ := Option.map_eq_some_iff.mp hexec
  obtain ⟨s, hs, hh⟩ := Option.bind_eq_some_iff.mp hh
  rw [Prod.mk.injEq] at hlast
  obtain ⟨buf, len, hpassed⟩ := hall _ _ s apart_onlyControlPipe (Transition.System.run_of_exec hs) h
    (List.mem_of_getLast? hh) (.inl hlast.1)
  rw [hlast.2] at hpassed
  cases hpassed

end ControlSystem

end MikanOS.Xhci
