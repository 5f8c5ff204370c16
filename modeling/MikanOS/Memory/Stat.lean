import MikanOS.Memory.Allocate

/-! # Memory statistics

`memory_manager.cpp`, `Stat`: the allocated frames are counted line by line, from the line of the
range's first frame up to, not including, the line of its end. -/

namespace MikanOS

structure MemoryStat where
  allocatedFrames : Nat
  totalFrames : Nat
  deriving DecidableEq

namespace BitmapMemoryManager

variable (m : BitmapMemoryManager)

/-- `std::bitset<kBitsPerMapLine>(line).count()`. -/
def bitCount (line : MapLineType) : Nat :=
  (List.range kBitsPerMapLine).countP fun i => line.getLsbD i

/-- The loop of `Stat` from the line `i` on, with `remaining` lines to go. -/
def statLoop (i sum : Nat) : (remaining : Nat) → Nat
  | 0 => sum
  | remaining + 1 => statLoop (i + 1) (sum + bitCount (m.allocMap i)) remaining

def stat : MemoryStat where
  allocatedFrames :=
    let i := m.rangeBegin / kBitsPerMapLine
    m.statLoop i 0 (m.rangeEnd / kBitsPerMapLine - i)
  totalFrames := (m.rangeEnd + 2 ^ 64 - m.rangeBegin) % 2 ^ 64

/-- The allocated frames from `lo` up to `hi`. -/
def allocatedIn (lo hi : Nat) : Finset Nat :=
  (Finset.Ico lo hi).filter fun f => m.getBit f = true

variable {m} {lo mid hi start n f : Nat}

theorem mem_allocatedIn : f ∈ m.allocatedIn lo hi ↔ (lo ≤ f ∧ f < hi) ∧ m.getBit f = true := by
  rw [allocatedIn, Finset.mem_filter, Finset.mem_Ico]

theorem card_allocatedIn_le (m : BitmapMemoryManager) (lo hi : Nat) :
    (m.allocatedIn lo hi).card ≤ hi - lo := by
  rw [← Nat.card_Ico]
  exact Finset.card_filter_le _ _

theorem card_allocatedIn_add (hlo : lo ≤ mid) (hhi : mid ≤ hi) :
    (m.allocatedIn lo mid).card + (m.allocatedIn mid hi).card = (m.allocatedIn lo hi).card := by
  rw [← Finset.card_union_of_disjoint]
  · congr 1
    ext f
    rw [Finset.mem_union, mem_allocatedIn, mem_allocatedIn, mem_allocatedIn, ← or_and_right]
    refine and_congr_left fun _ => ⟨fun h => ?_, fun h => ?_⟩ <;> omega
  · refine Finset.disjoint_left.mpr fun f hf hf' => ?_
    have := (mem_allocatedIn.mp hf).1
    have := (mem_allocatedIn.mp hf').1
    omega

theorem card_allocatedIn_succ (m : BitmapMemoryManager) (lo : Nat) :
    (m.allocatedIn lo (lo + 1)).card = if m.getBit lo then 1 else 0 := by
  rw [allocatedIn, Nat.Ico_succ_singleton, Finset.filter_singleton]
  split <;> rfl

/-- The bits of a line are those of its frames. -/
theorem card_allocatedIn_line (m : BitmapMemoryManager) (i : Nat) :
    (m.allocatedIn (64 * i) (64 * (i + 1))).card = bitCount (m.allocMap i) := by
  have bits : ∀ k ≤ 64, (m.allocatedIn (64 * i) (64 * i + k)).card =
      (List.range k).countP fun j => (m.allocMap i).getLsbD j := by
    intro k hk
    induction k with
    | zero => simp [allocatedIn]
    | succ k ih =>
      have hbit : m.getBit (64 * i + k) = (m.allocMap i).getLsbD k := by
        rw [getBit_eq_getLsbD, Nat.mul_add_div (by decide), Nat.mul_add_mod,
          Nat.div_eq_of_lt (by omega), Nat.mod_eq_of_lt (by omega), Nat.add_zero]
      rw [← Nat.add_assoc, ← card_allocatedIn_add (Nat.le_add_right _ k) (Nat.le_succ _),
        ih (by omega), card_allocatedIn_succ, List.range_succ, List.countP_append,
        List.countP_singleton, hbit]
  exact bits 64 (Nat.le_refl _)

/-- The loop counts whole lines. -/
theorem statLoop_eq (m : BitmapMemoryManager) (i sum remaining : Nat) :
    m.statLoop i sum remaining =
      sum + (m.allocatedIn (64 * i) (64 * (i + remaining))).card := by
  induction remaining generalizing i sum with
  | zero => simp [statLoop, allocatedIn]
  | succ remaining ih =>
    rw [statLoop, ih, ← card_allocatedIn_line, Nat.add_assoc,
      card_allocatedIn_add (by omega) (by omega), Nat.add_right_comm i 1 remaining, Nat.add_assoc i]

/-- `Stat` counts the frames from the beginning of the first line to the beginning of the last. -/
theorem stat_allocatedFrames (h : m.rangeBegin ≤ m.rangeEnd) :
    m.stat.allocatedFrames =
      (m.allocatedIn (64 * (m.rangeBegin / 64)) (64 * (m.rangeEnd / 64))).card := by
  have hle : m.rangeBegin / 64 ≤ m.rangeEnd / 64 := Nat.div_le_div_right h
  rw [stat]
  dsimp only [kBitsPerMapLine]
  rw [statLoop_eq, Nat.zero_add, Nat.add_sub_cancel' hle]

theorem stat_totalFrames (h : m.rangeBegin ≤ m.rangeEnd) (hend : m.rangeEnd < 2 ^ 64) :
    m.stat.totalFrames = m.rangeEnd - m.rangeBegin := by
  rw [stat]
  dsimp only
  omega

/-- Marking a free run adds the part of it that lies below `hi`. -/
theorem card_allocatedIn_markAllocated (hlo : lo ≤ start)
    (hfree : ∀ i < n, m.getBit (start + i) = false) :
    ((m.markAllocated start n).allocatedIn lo hi).card =
      (m.allocatedIn lo hi).card + (min (start + n) hi - start) := by
  have hunion : (m.markAllocated start n).allocatedIn lo hi =
      m.allocatedIn lo hi ∪ Finset.Ico start (min (start + n) hi) := by
    ext f
    rw [Finset.mem_union, mem_allocatedIn, mem_allocatedIn, Finset.mem_Ico, getBit_markAllocated,
      Bool.or_eq_true, decide_eq_true_eq, lt_min_iff]
    constructor
    · rintro ⟨hf, hmark | hbit⟩
      · exact .inr ⟨hmark.1, hmark.2, hf.2⟩
      · exact .inl ⟨hf, hbit⟩
    · rintro (⟨hf, hbit⟩ | ⟨hf, hlt, hhi⟩)
      · exact ⟨hf, .inr hbit⟩
      · exact ⟨⟨hlo.trans hf, hhi⟩, .inl ⟨hf, hlt⟩⟩
  have hdisjoint : Disjoint (m.allocatedIn lo hi) (Finset.Ico start (min (start + n) hi)) := by
    refine Finset.disjoint_left.mpr fun f hf hf' => ?_
    obtain ⟨hle, hlt⟩ := Finset.mem_Ico.mp hf'
    have hlt' := lt_of_lt_of_le hlt (min_le_left _ _)
    have := hfree (f - start) (by omega)
    rw [Nat.add_sub_cancel' hle, (mem_allocatedIn.mp hf).2] at this
    cases this
  rw [hunion, Finset.card_union_of_disjoint hdisjoint, Nat.card_Ico]

/-! ## The statistics of a range -/

/-- What `Stat` is for: the numbers of allocated frames and of all frames of the range, which a
successful `Allocate(n)` moves by `n`. -/
def StatCorrect (m : BitmapMemoryManager) (n : Nat) : Prop :=
  m.stat.allocatedFrames = (m.allocatedIn m.rangeBegin m.rangeEnd).card ∧
    m.stat.totalFrames = m.rangeEnd - m.rangeBegin ∧
    m.stat.allocatedFrames ≤ m.stat.totalFrames ∧
    ((m.allocate n).1.error = .kSuccess →
      (m.allocate n).2.stat.allocatedFrames = m.stat.allocatedFrames + n)

/-- The frames that the whole lines leave out behind the range's beginning and at its end. -/
theorem stat_allocatedFrames_iff (h : m.rangeBegin ≤ m.rangeEnd) :
    m.stat.allocatedFrames = (m.allocatedIn m.rangeBegin m.rangeEnd).card ↔
      (m.allocatedIn (64 * (m.rangeEnd / 64)) m.rangeEnd).card =
        (m.allocatedIn (64 * (m.rangeBegin / 64)) m.rangeBegin).card := by
  rw [stat_allocatedFrames h]
  have hle : m.rangeBegin / 64 ≤ m.rangeEnd / 64 := Nat.div_le_div_right h
  have hall : (m.allocatedIn (64 * (m.rangeBegin / 64)) (64 * (m.rangeEnd / 64))).card +
      (m.allocatedIn (64 * (m.rangeEnd / 64)) m.rangeEnd).card =
        (m.allocatedIn (64 * (m.rangeBegin / 64)) m.rangeEnd).card :=
    card_allocatedIn_add (by omega) (by omega)
  have hall' : (m.allocatedIn (64 * (m.rangeBegin / 64)) m.rangeBegin).card +
      (m.allocatedIn m.rangeBegin m.rangeEnd).card =
        (m.allocatedIn (64 * (m.rangeBegin / 64)) m.rangeEnd).card :=
    card_allocatedIn_add (by omega) h
  omega

/-- `Allocate(n)` moves the count by `n` unless its run reaches into the range's last line. -/
theorem stat_allocate_iff (h : m.rangeBegin ≤ m.rangeEnd) (n : Nat) :
    ((m.allocate n).1.error = .kSuccess →
        (m.allocate n).2.stat.allocatedFrames = m.stat.allocatedFrames + n) ↔
      n = 0 ∨ m.FreeStarts n m.rangeBegin = ∅ ∨
        ∃ s ∈ m.FreeStarts n m.rangeBegin, s + n ≤ 64 * (m.rangeEnd / 64) := by
  rcases Nat.eq_zero_or_pos n with rfl | hn
  · rw [allocate_zero]
    exact iff_of_true (fun _ => rfl) (.inl rfl)
  rcases allocate_spec m hn with ⟨s, hleast, hmark⟩ | ⟨hempty, hfail⟩
  · obtain ⟨hlo, hend, hused⟩ := hleast.1
    have hfree : ∀ i < n, m.getBit (s + i) = false := fun i hi => by simpa using hused i hi
    have hgrow : ((m.markAllocated s n).allocatedIn (64 * (m.rangeBegin / 64))
        (64 * (m.rangeEnd / 64))).card =
          (m.allocatedIn (64 * (m.rangeBegin / 64)) (64 * (m.rangeEnd / 64))).card +
            (min (s + n) (64 * (m.rangeEnd / 64)) - s) :=
      card_allocatedIn_markAllocated (by omega) hfree
    rw [hmark, stat_allocatedFrames (m := m.markAllocated s n) (by simpa using h),
      markAllocated_rangeBegin, markAllocated_rangeEnd, hgrow, ← stat_allocatedFrames h]
    constructor
    · intro hcount
      have := hcount rfl
      exact .inr (.inr ⟨s, hleast.1, by omega⟩)
    · rintro (hzero | hempty | ⟨s', hs', hs'end⟩) -
      · omega
      · rw [hempty] at hleast
        exact absurd hleast.1 (Set.notMem_empty s)
      · have := hleast.2 hs'
        omega
  · rw [hfail]
    exact iff_of_true (fun hsuccess => by cases hsuccess) (.inr (.inl hempty))

/-- `Stat` is right if and only if the frames that it leaves out at the end of the range make up
for those that it adds before its beginning, and `Allocate(n)` finds its run in front of the
range's last line, if it finds one. -/
theorem statCorrect_iff (m : BitmapMemoryManager) (h : m.rangeBegin ≤ m.rangeEnd)
    (hend : m.rangeEnd ≤ kFrameCount) (n : Nat) :
    m.StatCorrect n ↔
      (m.allocatedIn (64 * (m.rangeEnd / 64)) m.rangeEnd).card =
          (m.allocatedIn (64 * (m.rangeBegin / 64)) m.rangeBegin).card ∧
        (n = 0 ∨ m.FreeStarts n m.rangeBegin = ∅ ∨
          ∃ s ∈ m.FreeStarts n m.rangeBegin, s + n ≤ 64 * (m.rangeEnd / 64)) := by
  have htotal := stat_totalFrames h (hend.trans_lt (by decide))
  rw [← stat_allocatedFrames_iff h, ← stat_allocate_iff h n]
  constructor
  · rintro ⟨hcount, -, -, hgrow⟩
    exact ⟨hcount, hgrow⟩
  · rintro ⟨hcount, hgrow⟩
    refine ⟨hcount, htotal, ?_, hgrow⟩
    rw [hcount, htotal]
    exact card_allocatedIn_le m _ _

/-- A bitmap with one frame in use, the last of a range of 64 frames that begins at frame 1. -/
def lastFrameUsed : BitmapMemoryManager :=
  (({} : BitmapMemoryManager).markAllocated 64 1).setMemoryRange 1 65

theorem statCorrect_iff_lastFrameUsed :
    lastFrameUsed.StatCorrect 0 ↔
      (lastFrameUsed.allocatedIn 64 65).card = (lastFrameUsed.allocatedIn 0 1).card ∧
        ((0 : Nat) = 0 ∨ lastFrameUsed.FreeStarts 0 1 = ∅ ∨
          ∃ s ∈ lastFrameUsed.FreeStarts 0 1, s + 0 ≤ 64) :=
  statCorrect_iff lastFrameUsed (by decide) (by decide) 0

/-- `Stat` reports no allocated frame there. -/
theorem not_statCorrect_lastFrameUsed :
    ¬ ∀ m : BitmapMemoryManager, m.rangeBegin ≤ m.rangeEnd → m.rangeEnd ≤ kFrameCount →
      ∀ n, m.StatCorrect n := by
  intro h
  have hcount := (h lastFrameUsed (by decide) (by decide) 0).1
  have hstat : lastFrameUsed.stat.allocatedFrames = 0 := by decide
  have hset : 64 ∈ lastFrameUsed.allocatedIn lastFrameUsed.rangeBegin lastFrameUsed.rangeEnd :=
    mem_allocatedIn.mpr ⟨⟨by decide, by decide⟩, by decide⟩
  rw [hstat, eq_comm, Finset.card_eq_zero] at hcount
  rw [hcount] at hset
  exact absurd hset (Finset.notMem_empty 64)

end BitmapMemoryManager

end MikanOS
