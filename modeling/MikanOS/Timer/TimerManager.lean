import MikanOS.Library.PriorityQueue
import MikanOS.Task.Message

/-! # Timers

`timer.cpp`: the timers wait in a priority queue, together with a timer whose timeout never comes.
`Tick` sends a message for every timer that is due, and puts the task timer back two ticks on. -/

namespace MikanOS

/-- `Timer`. -/
structure Timer where
  timeout : Nat
  value : Int
  taskID : Nat
  deriving DecidableEq

/-- The receiver and the message that `Tick` sends for a timer. -/
def Timer.message (t : Timer) : Nat × Message := (t.taskID, .kTimerTimeout t.timeout t.value)

def kTaskTimerPeriod : Nat := 2
def kTaskTimerValue : Int := 2 ^ 31 - 1

/-- The greatest `unsigned long`. -/
def sentinelTimeout : Nat := 2 ^ 64 - 1

/-- `TimerManager`, with its timers in a queue of type `Q`. -/
structure TimerManager (Q : Type) where
  tick : Nat
  timers : Q

namespace TimerManager

variable {Q : Type} (P : PriorityQueue Timer Timer.timeout Q)

/-- The constructor. -/
def new : TimerManager Q := ⟨0, P.push P.empty ⟨sentinelTimeout, 0, 0⟩⟩

def addTimer (m : TimerManager Q) (t : Timer) : TimerManager Q :=
  { m with timers := P.push m.timers t }

/-- The task timer as `Tick` puts it back. -/
def rearmed (tick : Nat) : Timer := ⟨(tick + kTaskTimerPeriod) % 2 ^ 64, kTaskTimerValue, 1⟩

/-- The loop of `Tick`, with a bound on its turns: the timers left, whether the task timer was due, and
the timers whose messages were sent. -/
def tickLoop (tick : Nat) : Nat → Q → Bool → List Timer → Option (Q × Bool × List Timer)
  | 0, _, _, _ => none
  | fuel + 1, timers, taskTimerTimeout, sent =>
    match P.top timers with
    | none => none
    | some t =>
      if t.timeout > tick then some (timers, taskTimerTimeout, sent)
      else if t.value = kTaskTimerValue then
        tickLoop tick fuel (P.push (P.pop timers) (rearmed tick)) true sent
      else tickLoop tick fuel (P.pop timers) taskTimerTimeout (sent ++ [t])

/-- `Tick`, if it returns: whether the task timer was due, and the timers whose messages were sent. A
turn for every timer and one for the end are enough. -/
def doTick (m : TimerManager Q) : Option (TimerManager Q × Bool × List Timer) :=
  let tick := (m.tick + 1) % 2 ^ 64
  match tickLoop P tick ((P.contents m.timers).card + 1) m.timers false [] with
  | none => none
  | some (timers, taskTimerTimeout, sent) => some (⟨tick, timers⟩, taskTimerTimeout, sent)

/-! ## The loop -/

/-- The timers that are due, without the task timers, and the task timers that are due. -/
def Due (tick : Nat) (t : Timer) : Prop := t.timeout ≤ tick ∧ t.value ≠ kTaskTimerValue
def TaskDue (tick : Nat) (t : Timer) : Prop := t.timeout ≤ tick ∧ t.value = kTaskTimerValue

instance (tick : Nat) (t : Timer) : Decidable (Due tick t) := inferInstanceAs (Decidable (_ ∧ _))
instance (tick : Nat) (t : Timer) : Decidable (TaskDue tick t) := inferInstanceAs (Decidable (_ ∧ _))

variable {P} {tick : Nat}

theorem due_or_taskDue {t : Timer} (h : t.timeout ≤ tick) : Due tick t ∨ TaskDue tick t := by
  by_cases hv : t.value = kTaskTimerValue
  · exact .inr ⟨h, hv⟩
  · exact .inl ⟨h, hv⟩

theorem TaskDue.not_due {t : Timer} (h : TaskDue tick t) : ¬ Due tick t := fun h' => h'.2 h.2

/-- The loop empties the queue of what is due, in the order of the timeouts. -/
theorem tickLoop_spec (fuel : Nat) (timers : Q) (flag : Bool) (sent : List Timer)
    (hlive : ∃ t ∈ P.contents timers, tick < t.timeout)
    (hwrap : ∀ t ∈ P.contents timers, TaskDue tick t → tick < (rearmed tick).timeout)
    (hfuel : ((P.contents timers).filter (·.timeout ≤ tick)).card < fuel) :
    ∃ timers' flag' l, tickLoop P tick fuel timers flag sent = some (timers', flag', sent ++ l) ∧
      (flag' = true ↔ flag = true ∨ ∃ t ∈ P.contents timers, TaskDue tick t) ∧
      l.Pairwise (·.timeout ≤ ·.timeout) ∧
      (l : Multiset Timer) = (P.contents timers).filter (Due tick) ∧
      P.contents timers' = (P.contents timers).filter (tick < ·.timeout) +
        ((P.contents timers).filter (TaskDue tick)).map fun _ => rearmed tick := by
  induction fuel generalizing timers flag sent with
  | zero => exact absurd hfuel (Nat.not_lt_zero _)
  | succ fuel ih =>
    obtain ⟨u, hu, hlate⟩ := hlive
    have hne : P.contents timers ≠ 0 := fun h0 => Multiset.notMem_zero u (h0 ▸ hu)
    obtain ⟨t, htop⟩ := P.exists_top hne
    have hleast := P.key_top_le _ _ htop
    have hpop := P.contents_pop _ _ htop
    by_cases hlt : tick < t.timeout
    · -- the earliest timer is not due, so none is
      have hall : ∀ b ∈ P.contents timers, tick < b.timeout := P.lt_key_top htop hlt
      have hnone : (P.contents timers).filter (TaskDue tick) = 0 :=
        Multiset.filter_eq_nil.mpr fun b hb h => Nat.not_le.mpr (hall b hb) h.1
      refine ⟨timers, flag, [], ?_, ?_, .nil, ?_, ?_⟩
      · rw [tickLoop, htop, List.append_nil]
        exact if_pos hlt
      · refine ⟨.inl, fun h => h.resolve_right ?_⟩
        rintro ⟨b, hb, h⟩
        exact Nat.not_le.mpr (hall b hb) h.1
      · exact (Multiset.filter_eq_nil.mpr fun b hb h => Nat.not_le.mpr (hall b hb) h.1).symm
      · rw [hnone, Multiset.filter_eq_self.mpr hall, Multiset.map_zero, add_zero]
    · have hle : t.timeout ≤ tick := Nat.not_lt.mp hlt
      have hlive' : u ∈ P.contents (P.pop timers) := by
        rw [← hpop] at hu
        rcases Multiset.mem_cons.mp hu with rfl | hu
        · exact absurd hlate hlt
        · exact hu
      have hmem : ∀ b ∈ P.contents (P.pop timers), b ∈ P.contents timers := fun b hb =>
        hpop ▸ Multiset.mem_cons_of_mem hb
      rw [← hpop, Multiset.filter_cons_of_pos (p := fun b : Timer => b.timeout ≤ tick) _ hle,
        Multiset.card_cons] at hfuel
      rcases due_or_taskDue hle with hdue | htask
      · -- a message is sent
        obtain ⟨timers', flag', l, hloop, hflag, hsorted, hl, hcont⟩ :=
          ih (P.pop timers) flag (sent ++ [t]) ⟨u, hlive', hlate⟩
            (fun b hb => hwrap b (hmem b hb)) (by omega)
        refine ⟨timers', flag', t :: l, ?_, ?_, ?_, ?_, ?_⟩
        · rw [tickLoop, htop]
          simp only [if_neg (show ¬ t.timeout > tick from hlt), if_neg hdue.2]
          rw [hloop, List.append_assoc, List.singleton_append]
        · rw [hflag, ← hpop]
          simp only [Multiset.mem_cons, exists_eq_or_imp]
          have hnot : ¬ TaskDue tick t := fun h => h.not_due hdue
          simp [hnot]
        · refine List.pairwise_cons.mpr ⟨fun b hb => ?_, hsorted⟩
          have hb : b ∈ (l : Multiset Timer) := hb
          rw [hl] at hb
          exact hleast b (hmem b (Multiset.mem_of_mem_filter hb))
        · rw [← hpop, Multiset.filter_cons_of_pos _ hdue, ← hl]
          rfl
        · rw [hcont, ← hpop, Multiset.filter_cons_of_neg (p := fun b : Timer => tick < b.timeout) _ hlt,
            Multiset.filter_cons_of_neg _ fun h : TaskDue tick t => h.not_due hdue]
      · -- the task timer goes back into the queue
        have hlater := hwrap t (P.mem_of_top htop) htask
        have hnotle : ¬ (rearmed tick).timeout ≤ tick := Nat.not_le.mpr hlater
        have hpush := P.contents_push (P.pop timers) (rearmed tick)
        obtain ⟨timers', flag', l, hloop, hflag, hsorted, hl, hcont⟩ :=
          ih (P.push (P.pop timers) (rearmed tick)) true sent
            ⟨u, hpush ▸ Multiset.mem_cons_of_mem hlive', hlate⟩
            (fun b hb hb' => by
              rw [hpush] at hb
              rcases Multiset.mem_cons.mp hb with rfl | hb
              · exact absurd hb'.1 hnotle
              · exact hwrap b (hmem b hb) hb')
            (by rw [hpush, Multiset.filter_cons_of_neg (p := fun b : Timer => b.timeout ≤ tick) _ hnotle]; omega)
        refine ⟨timers', flag', l, ?_, ?_, hsorted, ?_, ?_⟩
        · rw [tickLoop, htop]
          simp only [if_neg (show ¬ t.timeout > tick from hlt), if_pos htask.2]
          exact hloop
        · rw [hflag]
          refine iff_of_true (.inl rfl) (.inr ⟨t, P.mem_of_top htop, htask⟩)
        · rw [hl, hpush, ← hpop, Multiset.filter_cons_of_neg _ fun h : Due tick _ => hnotle h.1,
            Multiset.filter_cons_of_neg _ htask.not_due]
        · rw [hcont, hpush, ← hpop, Multiset.filter_cons_of_pos (p := fun b : Timer => tick < b.timeout) _ hlater,
            Multiset.filter_cons_of_neg _ fun h : TaskDue tick _ => hnotle h.1,
            Multiset.filter_cons_of_neg (p := fun b : Timer => tick < b.timeout) _ hlt,
            Multiset.filter_cons_of_pos _ htask, Multiset.map_cons, Multiset.add_cons,
            Multiset.cons_add]

/-- A task timer that is put back with a timeout that is due again keeps the loop going for ever. -/
theorem tickLoop_eq_none {fuel : Nat} {timers : Q} (flag : Bool) (sent : List Timer)
    (htask : ∃ t ∈ P.contents timers, TaskDue tick t)
    (hwrap : (rearmed tick).timeout ≤ tick) : tickLoop P tick fuel timers flag sent = none := by
  induction fuel generalizing timers flag sent with
  | zero => rfl
  | succ fuel ih =>
    obtain ⟨u, hu, hdue⟩ := htask
    have hne : P.contents timers ≠ 0 := fun h0 => Multiset.notMem_zero u (h0 ▸ hu)
    obtain ⟨t, htop⟩ := P.exists_top hne
    have hle : ¬ t.timeout > tick := Nat.not_lt.mpr ((P.key_top_le _ _ htop u hu).trans hdue.1)
    rw [tickLoop, htop]
    simp only [if_neg hle]
    by_cases hv : t.value = kTaskTimerValue
    · rw [if_pos hv]
      refine ih true sent ⟨rearmed tick, ?_, hwrap, rfl⟩
      rw [P.contents_push]
      exact Multiset.mem_cons_self _ _
    · rw [if_neg hv]
      refine ih flag _ ⟨u, ?_, hdue⟩
      rw [← P.contents_pop _ _ htop] at hu
      rcases Multiset.mem_cons.mp hu with rfl | hu
      · exact absurd hdue.2 hv
      · exact hu

end TimerManager

end MikanOS
