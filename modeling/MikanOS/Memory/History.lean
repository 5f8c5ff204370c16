import MikanOS.Library.Transition
import MikanOS.Memory.Allocate

/-! # Allocation histories

Runs of `MarkAllocated`, `Allocate` and `Free` on one allocator with a fixed range, with the blocks
that were handed out and the frames that were reserved kept beside the bitmap. -/

namespace MikanOS.BitmapMemoryManager

/-- A block as `Allocate` hands it out. -/
structure Block where
  start : Nat
  len : Nat
  deriving DecidableEq

namespace Block

def Contains (b : Block) (f : Nat) : Prop := b.start ≤ f ∧ f < b.start + b.len

instance (b : Block) (f : Nat) : Decidable (b.Contains f) :=
  inferInstanceAs (Decidable (_ ∧ _))

def Disjoint (b c : Block) : Prop := ∀ f, b.Contains f → ¬ c.Contains f

theorem Disjoint.symm {b c : Block} (h : b.Disjoint c) : c.Disjoint b := fun f hc hb => h f hb hc

end Block

/-- The range given to `SetMemoryRange`. -/
structure MemoryRange where
  rangeBegin : Nat
  rangeEnd : Nat
  begin_le_end : rangeBegin ≤ rangeEnd
  end_le_count : rangeEnd ≤ kFrameCount

structure History where
  mgr : BitmapMemoryManager
  /-- Every block that `Allocate` has returned. -/
  allocated : List Block := []
  /-- The blocks that have not been freed since. -/
  live : List Block := []
  /-- The arguments of every `MarkAllocated`. -/
  marked : List Block := []
  /-- The frames marked by `MarkAllocated` while they belonged to no live block. -/
  reserved : List Nat := []

inductive Op where
  | markAllocated (start n : Nat)
  | allocate (n : Nat)
  | free (b : Block)

namespace History

def init (range : MemoryRange) : History where
  mgr := ({} : BitmapMemoryManager).setMemoryRange range.rangeBegin range.rangeEnd

/-- The history after a successful or a failed `Allocate`. -/
def allocate (h : History) (n : Nat) : History :=
  match h.mgr.allocate n with
  | (⟨start, .kSuccess⟩, mgr) =>
    { h with mgr, allocated := ⟨start, n⟩ :: h.allocated, live := ⟨start, n⟩ :: h.live }
  | (_, mgr) => { h with mgr }

def mark (h : History) (start n : Nat) : History :=
  { h with
    mgr := h.mgr.markAllocated start n
    marked := ⟨start, n⟩ :: h.marked
    reserved :=
      (List.range' start n).filter (fun f => ∀ b ∈ h.live, ¬ b.Contains f) ++ h.reserved }

def free (h : History) (b : Block) : History :=
  { h with mgr := (h.mgr.free b.start b.len).2, live := h.live.erase b }

/-- Only frames of the bitmap are marked; only blocks of the list `freeable` are freed. -/
def step (freeable : History → List Block) (h : History) : Op → Option History
  | .markAllocated start n => if start + n ≤ kFrameCount then some (h.mark start n) else none
  | .allocate n => some (h.allocate n)
  | .free b => if b ∈ freeable h then some (h.free b) else none

theorem step_markAllocated (freeable : History → List Block) {h : History} (start n : Nat)
    (hle : start + n ≤ kFrameCount) :
    step freeable h (.markAllocated start n) = some (h.mark start n) := if_pos hle

theorem step_free {freeable : History → List Block} {h : History} {b : Block}
    (hb : b ∈ freeable h) : step freeable h (.free b) = some (h.free b) := if_pos hb

/-- Histories that may free any block that was ever handed out, also twice. -/
abbrev anyFree : Transition.System History Op := ⟨step allocated⟩

/-- Histories that free live blocks only. -/
abbrev liveFree : Transition.System History Op := ⟨step live⟩

/-- What holds of the tracked blocks and frames in every history of `liveFree`. -/
structure Inv (range : MemoryRange) (h : History) : Prop where
  rangeBegin : h.mgr.rangeBegin = range.rangeBegin
  rangeEnd : h.mgr.rangeEnd = range.rangeEnd
  disjoint : h.live.Pairwise Block.Disjoint
  inside : ∀ b ∈ h.live, range.rangeBegin ≤ b.start ∧ b.start + b.len ≤ range.rangeEnd
  live_used : ∀ b ∈ h.live, ∀ f, b.Contains f → h.mgr.getBit f = true
  reserved_used : ∀ f ∈ h.reserved, h.mgr.getBit f = true
  reserved_free : ∀ b ∈ h.live, ∀ f ∈ h.reserved, ¬ b.Contains f

variable {range : MemoryRange} {h : History}

theorem Inv.init : Inv range (init range) where
  rangeBegin := rfl
  rangeEnd := rfl
  disjoint := .nil
  inside := by simp [History.init]
  live_used := by simp [History.init]
  reserved_used := by simp [History.init]
  reserved_free := by simp [History.init]

theorem Inv.mark (H : Inv range h) (start n : Nat) : Inv range (h.mark start n) where
  rangeBegin := by simp [History.mark, H.rangeBegin]
  rangeEnd := by simp [History.mark, H.rangeEnd]
  disjoint := H.disjoint
  inside := H.inside
  live_used b hb f hf := by simp [History.mark, H.live_used b hb f hf]
  reserved_used f hf := by
    simp only [History.mark, List.mem_append, List.mem_filter, List.mem_range'_1] at hf
    rcases hf with ⟨hf, -⟩ | hf
    · simp [History.mark, hf]
    · simp [History.mark, H.reserved_used f hf]
  reserved_free b hb f hf := by
    simp only [History.mark, List.mem_append, List.mem_filter, decide_eq_true_eq] at hf
    rcases hf with ⟨-, hf⟩ | hf
    · exact hf b hb
    · exact H.reserved_free b hb f hf

/-- A block of frames that were free is disjoint from whatever is in use. -/
private theorem Inv.cons (H : Inv range h) {start n : Nat}
    (hin : range.rangeBegin ≤ start ∧ start + n ≤ range.rangeEnd)
    (hfree : ∀ i < n, h.mgr.getBit (start + i) = false) :
    Inv range { h with
      mgr := h.mgr.markAllocated start n
      allocated := ⟨start, n⟩ :: h.allocated
      live := ⟨start, n⟩ :: h.live } := by
  have hunused : ∀ f, (Block.mk start n).Contains f → h.mgr.getBit f = false := by
    rintro f ⟨h1, h2⟩
    have := hfree (f - start) (by simp only at h1 h2; omega)
    rwa [Nat.add_sub_cancel' h1] at this
  refine ⟨?_, ?_, ?_, ?_, ?_, ?_, ?_⟩
  · simp [H.rangeBegin]
  · simp [H.rangeEnd]
  · refine List.pairwise_cons.mpr ⟨fun b hb f hf hbf => ?_, H.disjoint⟩
    have := H.live_used b hb f hbf
    simp [hunused f hf] at this
  · rintro b (_ | ⟨_, hb⟩)
    · exact hin
    · exact H.inside b hb
  · rintro b (_ | ⟨_, hb⟩) f hf
    · simp [Block.Contains] at hf
      simp [hf]
    · simp [H.live_used b hb f hf]
  · intro f hf
    simp [H.reserved_used f hf]
  · rintro b (_ | ⟨_, hb⟩) f hf hbf
    · have := H.reserved_used f hf
      simp [hunused f hbf] at this
    · exact H.reserved_free b hb f hf hbf

theorem Inv.allocate (H : Inv range h) (n : Nat) : Inv range (h.allocate n) := by
  rcases Nat.eq_zero_or_pos n with rfl | hn
  · have hz : h.mgr = h.mgr.markAllocated h.mgr.rangeBegin 0 := rfl
    have hin : range.rangeBegin ≤ h.mgr.rangeBegin ∧ h.mgr.rangeBegin + 0 ≤ range.rangeEnd := by
      rw [H.rangeBegin]
      exact ⟨Nat.le_refl _, range.begin_le_end⟩
    have := H.cons hin (by simp)
    rw [← hz] at this
    simpa [History.allocate, allocate_zero] using this
  · rcases allocate_spec h.mgr hn with ⟨s, hs, heq⟩ | ⟨-, heq⟩
    · obtain ⟨⟨hlo, hfits, hfree⟩, -⟩ := hs
      rw [H.rangeBegin] at hlo
      rw [H.rangeEnd] at hfits
      simpa [History.allocate, heq] using H.cons ⟨hlo, hfits⟩ (by simpa using hfree)
    · simpa [History.allocate, heq] using H

theorem Inv.free (H : Inv range h) {b : Block} (hb : b ∈ h.live) : Inv range (h.free b) := by
  have hsub : ∀ c, c ∈ h.live.erase b → c ∈ h.live := fun c => List.mem_of_mem_erase
  have hdis : ∀ c ∈ h.live.erase b, b.Disjoint c := by
    have hperm := List.perm_cons_erase hb
    have hpw := (hperm.pairwise_iff fun h => h.symm).mp H.disjoint
    exact fun c hc => (List.pairwise_cons.mp hpw).1 c hc
  refine ⟨?_, ?_, H.disjoint.sublist List.erase_sublist, fun c hc => H.inside c (hsub c hc),
    fun c hc f hf => ?_, fun f hf => ?_, fun c hc f hf => H.reserved_free c (hsub c hc) f hf⟩
  · simp [History.free, H.rangeBegin]
  · simp [History.free, H.rangeEnd]
  · have hout : ¬ (b.start ≤ f ∧ f < b.start + b.len) := fun hbf => hdis c hc f hbf hf
    simp [History.free, H.live_used c (hsub c hc) f hf, hout]
  · have hout : ¬ (b.start ≤ f ∧ f < b.start + b.len) := H.reserved_free b hb f hf
    simp [History.free, H.reserved_used f hf, hout]

theorem Inv.step (H : Inv range h) {op : Op} (hs : liveFree.step h op = some h') :
    Inv range h' := by
  cases op with
  | markAllocated start n =>
    simp only [History.step] at hs
    split at hs <;> cases hs
    exact H.mark start n
  | allocate n =>
    cases hs
    exact H.allocate n
  | free b =>
    simp only [History.step] at hs
    split at hs <;> cases hs
    exact H.free ‹_›

theorem Inv.reachable (hr : liveFree.Reachable (History.init range) h) : Inv range h :=
  hr.invariant (fun _ _ _ H hs => H.step hs) .init

/-- The allocator in every history: `Allocate` is a complete first fit, and the live blocks are
pairwise disjoint, inside the range and off the reserved frames. -/
theorem allocate_first_fit_and_live_disjoint
    (hr : liveFree.Reachable (History.init range) h) :
    (∀ n, 1 ≤ n →
      let fits := fun s => range.rangeBegin ≤ s ∧ s + n ≤ range.rangeEnd ∧
        ∀ i < n, h.mgr.getBit (s + i) = false
      let r := h.mgr.allocate n
      (r.1.error = .kSuccess ↔ ∃ s, fits s) ∧
      (r.1.error = .kSuccess → IsLeast {s | fits s} r.1.value ∧
        ∀ f, r.2.getBit f =
          (decide (r.1.value ≤ f ∧ f < r.1.value + n) || h.mgr.getBit f)) ∧
      (r.1.error ≠ .kSuccess → r.1.value = kNullFrame ∧ r.2 = h.mgr)) ∧
    h.live.Pairwise Block.Disjoint ∧
    (∀ b ∈ h.live, range.rangeBegin ≤ b.start ∧ b.start + b.len ≤ range.rangeEnd) ∧
    ∀ b ∈ h.live, ∀ f ∈ h.reserved, ¬ b.Contains f := by
  have H := Inv.reachable hr
  refine ⟨fun n hn => ?_, H.disjoint, H.inside, H.reserved_free⟩
  have hset : h.mgr.FreeStarts n h.mgr.rangeBegin = {s | range.rangeBegin ≤ s ∧
      s + n ≤ range.rangeEnd ∧ ∀ i < n, h.mgr.getBit (s + i) = false} := by
    ext s
    simp [FreeStarts, FirstFit.Starts, FirstFit.Fits, H.rangeBegin, H.rangeEnd]
  rcases allocate_spec h.mgr hn with ⟨s, hs, heq⟩ | ⟨hempty, heq⟩
  · rw [hset] at hs
    simp only [heq]
    exact ⟨⟨fun _ => ⟨s, hs.1⟩, fun _ => trivial⟩, fun _ => ⟨hs, fun f => by simp⟩,
      fun h => absurd rfl h⟩
  · rw [hset] at hempty
    simp only [heq]
    refine ⟨⟨fun h => (by cases h), fun hfit => ?_⟩, fun h => (by cases h),
      fun _ => ⟨trivial, trivial⟩⟩
    obtain ⟨s, hs⟩ := hfit
    exact absurd hs (Set.eq_empty_iff_forall_notMem.mp hempty s)

/-- A range of two frames. -/
def twoFrames : MemoryRange := ⟨0, 2, by decide, by decide⟩

theorem allocate_first_fit_and_live_disjoint_twoFrames :
    let h := ((History.init twoFrames).mark 0 1).allocate 1
    h.live.Pairwise Block.Disjoint ∧
      (∀ b ∈ h.live, 0 ≤ b.start ∧ b.start + b.len ≤ 2) ∧
      ∀ b ∈ h.live, ∀ f ∈ h.reserved, ¬ b.Contains f := by
  have hr : liveFree.Reachable (History.init twoFrames)
      (((History.init twoFrames).mark 0 1).allocate 1) :=
    ⟨[.markAllocated 0 1, .allocate 1],
      .cons (step_markAllocated live 0 1 (by decide)) (.single rfl)⟩
  exact (allocate_first_fit_and_live_disjoint hr).2

/-- `Allocate` when the frames at the beginning of the range are free. -/
private theorem allocate_begin {n : Nat} (hn : 1 ≤ n)
    (hfit : h.mgr.rangeBegin + n ≤ h.mgr.rangeEnd)
    (hfree : ∀ i < n, h.mgr.getBit (h.mgr.rangeBegin + i) = false) :
    h.allocate n = { h with
      mgr := h.mgr.markAllocated h.mgr.rangeBegin n
      allocated := ⟨h.mgr.rangeBegin, n⟩ :: h.allocated
      live := ⟨h.mgr.rangeBegin, n⟩ :: h.live } := by
  have := allocate_of_isLeast hn (FirstFit.isLeast_of_fits
    ⟨hfit, fun i hi => by simp [hfree i hi]⟩)
  simp [History.allocate, this]

/-- `MarkAllocated` may hit a live block, and freeing a block twice frees another one's frames:
after `Allocate(1)`, `MarkAllocated(0, 1)` frame 0 is live and marked, and after `Allocate(2)`,
`Free`, `Allocate(1)`, the same `Free` again, `Allocate(1)` frame 0 is in two live blocks. -/
theorem live_blocks_not_disjoint :
    (∃ h, anyFree.Run (History.init twoFrames) [.allocate 1, .markAllocated 0 1] h ∧
      ∃ b ∈ h.live, ∃ c ∈ h.marked, ¬ b.Disjoint c) ∧
    ∃ h, anyFree.Run (History.init twoFrames)
        [.allocate 2, .free ⟨0, 2⟩, .allocate 1, .free ⟨0, 2⟩, .allocate 1] h ∧
      ¬ h.live.Pairwise Block.Disjoint := by
  have hzero : ¬ (Block.mk 0 1).Disjoint ⟨0, 1⟩ := fun h => h 0 (by decide) (by decide)
  constructor
  · have h1 := allocate_begin (h := History.init twoFrames) (n := 1) (by decide)
      (by simp [History.init, twoFrames]) (by simp [History.init])
    refine ⟨((History.init twoFrames).allocate 1).mark 0 1,
      .cons rfl (.single (step_markAllocated allocated 0 1 (by decide))), ⟨0, 1⟩, ?_, ⟨0, 1⟩, ?_, hzero⟩
    · rw [h1]
      exact List.mem_cons_self
    · exact List.mem_cons_self
  · have h1 := allocate_begin (h := History.init twoFrames) (n := 2) (by decide)
      (by simp [History.init, twoFrames]) (by simp [History.init])
    have h2 := allocate_begin (h := ((History.init twoFrames).allocate 2).free ⟨0, 2⟩) (n := 1)
      (by decide) (by rw [h1]; decide)
      (by rw [h1]; simp [History.free, History.init, twoFrames])
    have h3 := allocate_begin (n := 1)
      (h := ((((History.init twoFrames).allocate 2).free ⟨0, 2⟩).allocate 1).free ⟨0, 2⟩)
      (by decide) (by rw [h2, h1]; decide)
      (by rw [h2, h1]; simp [History.free, History.init, twoFrames])
    refine ⟨_, .cons rfl (.cons (step_free ?_) (.cons rfl (.cons (step_free ?_) (.single rfl)))), ?_⟩
    · rw [h1]
      exact List.mem_cons_self
    · rw [h2, h1]
      exact List.mem_cons_of_mem _ List.mem_cons_self
    · rw [h3, h2, h1]
      exact fun hp => hzero ((List.pairwise_cons.mp hp).1 _ List.mem_cons_self)

end History

end MikanOS.BitmapMemoryManager
