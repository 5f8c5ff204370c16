import MikanOS.Library.Transition
import MikanOS.Timer.TimerManager

/-! # The delivery of timers

Runs of `AddTimer` and `Tick` from the constructor on, with the timers added and the messages sent so
far. A timer added at some tick is due at its timeout, and at the next tick if that has passed. -/

namespace MikanOS

open TimerManager

/-- A timer manager with its history: the timers added, each with the tick at which it was, the task
timer apart; the timers whose messages were sent, each with its tick; and the ticks at which `Tick`
returned true. -/
structure TimerHistory (Q : Type) where
  manager : TimerManager Q
  added : Multiset (Timer × Nat)
  task : Option (Timer × Nat)
  sent : List (Timer × Nat)
  switched : List Nat

namespace TimerHistory

inductive Event where
  | addTimer (t : Timer)
  | tick

variable {Q : Type} (P : PriorityQueue Timer Timer.timeout Q)

/-- One call. There is one task timer at most, and the ticks stay below the timeout that never comes. -/
def step (s : TimerHistory Q) : Event → Option (TimerHistory Q)
  | .addTimer t =>
    if t.value = kTaskTimerValue then
      if s.task.isNone then
        some { s with manager := s.manager.addTimer P t, task := some (t, s.manager.tick) }
      else none
    else
      some { s with manager := s.manager.addTimer P t, added := (t, s.manager.tick) ::ₘ s.added }
  | .tick =>
    if s.manager.tick + 1 < sentinelTimeout then do
      let (manager, taskTimerTimeout, sent) ← s.manager.doTick P
      some { s with
        manager
        sent := s.sent ++ sent.map (·, manager.tick)
        switched := if taskTimerTimeout then s.switched ++ [manager.tick] else s.switched }
    else none

def system : Transition.System (TimerHistory Q) Event := ⟨step P⟩

def init : TimerHistory Q := ⟨.new P, 0, none, [], []⟩

/-- The first tick after the insertion at which the timeout is reached. -/
def due (a : Timer × Nat) : Nat := max a.1.timeout (a.2 + 1)

/-- The timers that are not due at tick `n` yet, and the others with the ticks at which they were. -/
def pending (added : Multiset (Timer × Nat)) (n : Nat) : Multiset Timer :=
  (added.filter fun a => n < due a).map Prod.fst

def delivered (added : Multiset (Timer × Nat)) (n : Nat) : Multiset (Timer × Nat) :=
  (added.filter fun a => due a ≤ n).map fun a => (a.1, due a)

section Multiset

variable {added : Multiset (Timer × Nat)} {n : Nat} {t : Timer}

theorem lt_due_self (t : Timer) (n : Nat) : n < due (t, n) := by simp [due]

@[simp] theorem pending_zero : pending 0 n = 0 := rfl

theorem pending_cons : pending ((t, n) ::ₘ added) n = t ::ₘ pending added n := by
  rw [pending, Multiset.filter_cons_of_pos (p := fun a => n < due a) _ (lt_due_self t n),
    Multiset.map_cons, pending]

theorem delivered_cons : delivered ((t, n) ::ₘ added) n = delivered added n := by
  rw [delivered, Multiset.filter_cons_of_neg (p := fun a => due a ≤ n) _
    (Nat.not_le.mpr (lt_due_self t n)), delivered]

theorem pending_filter (h : ∀ a ∈ added, a.2 ≤ n) :
    (pending added n).filter (fun t => n + 1 < t.timeout) = pending added (n + 1) := by
  rw [pending, pending, Multiset.filter_map, Multiset.filter_filter]
  congr 1
  refine Multiset.filter_congr fun a ha => ?_
  have := h a ha
  simp only [Function.comp, due]
  omega

/-- The timers that are due at the next tick. -/
theorem pending_filter_due (h : ∀ a ∈ added, a.2 ≤ n ∧ a.1.value ≠ kTaskTimerValue) :
    ((pending added n).filter (Due (n + 1))).map (·, n + 1) =
      (added.filter fun a => due a = n + 1).map fun a => (a.1, due a) := by
  rw [pending, Multiset.filter_map, Multiset.filter_filter, Multiset.map_map]
  have hfilter : added.filter (fun a => (Due (n + 1) ∘ Prod.fst) a ∧ n < due a) =
      added.filter fun a => due a = n + 1 := by
    refine Multiset.filter_congr fun a ha => ?_
    obtain ⟨hle, hv⟩ := h a ha
    simp only [Function.comp, Due, due, hv, ne_eq, not_false_iff, and_true]
    omega
  rw [hfilter]
  refine Multiset.map_congr rfl fun a ha => ?_
  rw [Function.comp, (Multiset.mem_filter.mp ha).2]

theorem delivered_succ : delivered added (n + 1) =
    delivered added n + (added.filter fun a => due a = n + 1).map fun a => (a.1, due a) := by
  have hsplit := Multiset.filter_add_filter (fun a => due a ≤ n) (fun a => due a = n + 1) added
  have hnone : added.filter (fun a => due a ≤ n ∧ due a = n + 1) = 0 :=
    Multiset.filter_eq_nil.mpr fun a _ h => by omega
  have hor : added.filter (fun a => due a ≤ n ∨ due a = n + 1) =
      added.filter fun a => due a ≤ n + 1 :=
    Multiset.filter_congr fun a _ => by omega
  rw [hnone, hor, add_zero] at hsplit
  rw [delivered, delivered, ← hsplit, Multiset.map_add]

theorem pending_filter_taskDue (h : ∀ a ∈ added, a.1.value ≠ kTaskTimerValue) (m : Nat) :
    (pending added n).filter (TaskDue m) = 0 := by
  refine Multiset.filter_eq_nil.mpr fun t ht hdue => ?_
  obtain ⟨a, ha, rfl⟩ := Multiset.mem_map.mp ht
  exact h a (Multiset.mem_of_mem_filter ha) hdue.2

end Multiset

/-- The task timer in the queue, `e`, is the one that was added, `a`, or one put back since. -/
structure TaskTimer (n : Nat) (a e : Timer × Nat) (switched : List Nat) : Prop where
  value : e.1.value = kTaskTimerValue
  inserted : e.2 ≤ n
  lt_due : n < due e
  due_le : due a ≤ due e
  parity : due e % 2 = due a % 2
  next : due e = due a ∨ due e ≤ n + 2
  switched : ∀ j, j ∈ switched ↔ due a ≤ j ∧ j ≤ n ∧ (j - due a) % kTaskTimerPeriod = 0

/-- A tick at which the task timer is due: it is put back for two ticks on. -/
theorem TaskTimer.fire {n : Nat} {a e : Timer × Nat} {switched : List Nat}
    (h : TaskTimer n a e switched) (hdue : e.1.timeout ≤ n + 1)
    (hcan : n + 1 + kTaskTimerPeriod < 2 ^ 64) :
    TaskTimer (n + 1) a (rearmed (n + 1), n + 1) (switched ++ [n + 1]) := by
  have hlt := h.lt_due
  have hin := h.inserted
  have hdue' : due e = n + 1 := by
    rw [due] at hlt ⊢
    omega
  have hnext : due (rearmed (n + 1), n + 1) = n + 3 := by
    rw [due, rearmed, Nat.mod_eq_of_lt hcan]
    simp [kTaskTimerPeriod]
  have hle := h.due_le
  have hpar := h.parity
  refine ⟨rfl, Nat.le_refl _, by omega, by omega, by omega, .inr (by omega), fun j => ?_⟩
  rw [List.mem_append, h.switched, List.mem_singleton]
  simp only [kTaskTimerPeriod]
  omega

theorem TaskTimer.wait {n : Nat} {a e : Timer × Nat} {switched : List Nat}
    (h : TaskTimer n a e switched) (hdue : n + 1 < e.1.timeout) :
    TaskTimer (n + 1) a e switched := by
  have hlt : n + 1 < due e := by
    rw [due]
    omega
  have hle := h.due_le
  have hpar := h.parity
  have hin := h.inserted
  refine ⟨h.value, by omega, hlt, hle, hpar, ?_, fun j => ?_⟩
  · exact h.next.imp_right (by omega)
  · have hnext := h.next
    rw [h.switched]
    simp only [kTaskTimerPeriod]
    omega

/-- The queue holds the sentinel, the task timer and the timers that are not due yet; the messages of
all others were sent at the ticks at which they were due. -/
structure Inv (s : TimerHistory Q) (tasks : Multiset Timer) : Prop where
  tick_lt : s.manager.tick < sentinelTimeout
  inserted : ∀ a ∈ s.added, a.2 ≤ s.manager.tick ∧ a.1.value ≠ kTaskTimerValue
  contents : P.contents s.manager.timers =
    ⟨sentinelTimeout, 0, 0⟩ ::ₘ (tasks + pending s.added s.manager.tick)
  tasks : (s.task = none ∧ tasks = 0 ∧ s.switched = []) ∨
    ∃ a e, s.task = some a ∧ tasks = {e.1} ∧ TaskTimer s.manager.tick a e s.switched
  sent : (s.sent : Multiset (Timer × Nat)) = delivered s.added s.manager.tick
  sorted : s.sent.Pairwise fun a b => a.2 < b.2 ∨ a.2 = b.2 ∧ a.1.timeout ≤ b.1.timeout

/-- If the task timer is due at the next tick, its timeout after that is in the range of
`unsigned long`. -/
def CanRearm (s : TimerHistory Q) : Prop :=
  ∀ t ∈ P.contents s.manager.timers, TaskDue (s.manager.tick + 1) t →
    s.manager.tick + 1 + kTaskTimerPeriod < 2 ^ 64

variable {P} {s s' : TimerHistory Q} {tasks : Multiset Timer}

namespace Inv

theorem init : Inv P (init P) 0 where
  tick_lt := show 0 < sentinelTimeout by decide
  inserted a h := absurd h (Multiset.notMem_zero a)
  contents := by simp [TimerHistory.init, new]
  tasks := .inl ⟨rfl, rfl, rfl⟩
  sent := rfl
  sorted := .nil

theorem tasks_value (H : Inv P s tasks) : ∀ t ∈ tasks, t.value = kTaskTimerValue := by
  rcases H.tasks with ⟨-, rfl, -⟩ | ⟨a, e, -, rfl, he⟩
  · exact fun t h => absurd h (Multiset.notMem_zero t)
  · intro t ht
    rw [Multiset.mem_singleton.mp ht]
    exact he.value

/-- A timer other than the task timer is added: it is not due before the next tick. -/
theorem add (H : Inv P s tasks) {t : Timer} (ht : t.value ≠ kTaskTimerValue) :
    Inv P { s with
      manager := s.manager.addTimer P t
      added := (t, s.manager.tick) ::ₘ s.added } tasks := by
  refine ⟨H.tick_lt, ?_, ?_, H.tasks, H.sent.trans delivered_cons.symm, H.sorted⟩
  · intro a ha
    rcases Multiset.mem_cons.mp ha with rfl | ha
    · exact ⟨Nat.le_refl _, ht⟩
    · exact H.inserted a ha
  · simp only [addTimer, P.contents_push, H.contents, pending_cons]
    rw [Multiset.add_cons, Multiset.cons_swap]

theorem addTask (H : Inv P s tasks) {t : Timer} (ht : t.value = kTaskTimerValue)
    (hnone : s.task = none) :
    Inv P { s with
      manager := s.manager.addTimer P t
      task := some (t, s.manager.tick) } {t} := by
  obtain ⟨-, rfl, hswitched⟩ : s.task = none ∧ tasks = 0 ∧ s.switched = [] := by
    rcases H.tasks with h | ⟨a, e, h, -⟩
    · exact h
    · rw [hnone] at h
      cases h
  refine ⟨H.tick_lt, H.inserted, ?_, .inr ⟨(t, s.manager.tick), (t, s.manager.tick), rfl, rfl, ?_⟩,
    H.sent, H.sorted⟩
  · simp only [addTimer, P.contents_push, H.contents, zero_add]
    rw [Multiset.cons_swap, Multiset.singleton_add]
  · refine ⟨ht, Nat.le_refl _, lt_due_self _ _, Nat.le_refl _, rfl, .inl rfl, fun j => ?_⟩
    have hlt := lt_due_self t s.manager.tick
    simp only [hswitched, addTimer, List.not_mem_nil, false_iff]
    omega

/-- What a tick finds in the queue. -/
theorem tick_filter (H : Inv P s tasks) (hlt : s.manager.tick + 1 < sentinelTimeout) :
    (P.contents s.manager.timers).filter (fun t => s.manager.tick + 1 < t.timeout) =
        ⟨sentinelTimeout, 0, 0⟩ ::ₘ (tasks.filter (fun t => s.manager.tick + 1 < t.timeout) +
          pending s.added (s.manager.tick + 1)) ∧
      (P.contents s.manager.timers).filter (Due (s.manager.tick + 1)) =
        (pending s.added s.manager.tick).filter (Due (s.manager.tick + 1)) ∧
      (P.contents s.manager.timers).filter (TaskDue (s.manager.tick + 1)) =
        tasks.filter (TaskDue (s.manager.tick + 1)) := by
  have hsent : ¬ sentinelTimeout ≤ s.manager.tick + 1 := Nat.not_le.mpr hlt
  rw [H.contents]
  refine ⟨?_, ?_, ?_⟩
  · rw [Multiset.filter_cons_of_pos (p := fun t : Timer => s.manager.tick + 1 < t.timeout) _ hlt,
      Multiset.filter_add, pending_filter fun a ha => (H.inserted a ha).1]
  · have htasks : tasks.filter (Due (s.manager.tick + 1)) = 0 :=
      Multiset.filter_eq_nil.mpr fun t ht h => h.2 (H.tasks_value t ht)
    rw [Multiset.filter_cons_of_neg _ fun h : Due _ _ => hsent h.1, Multiset.filter_add, htasks,
      zero_add]
  · rw [Multiset.filter_cons_of_neg _ fun h : TaskDue _ _ => hsent h.1, Multiset.filter_add,
      pending_filter_taskDue fun a ha => (H.inserted a ha).2, add_zero]

theorem tick_mod (hlt : s.manager.tick + 1 < sentinelTimeout) :
    (s.manager.tick + 1) % 2 ^ 64 = s.manager.tick + 1 :=
  Nat.mod_eq_of_lt (hlt.trans (by decide))

/-- A tick returns just when the task timer can be put back. -/
theorem doTick_spec (H : Inv P s tasks) (hlt : s.manager.tick + 1 < sentinelTimeout) :
    (¬ CanRearm P s ∧ s.manager.doTick P = none) ∨
    CanRearm P s ∧ ∃ timers flag l,
      s.manager.doTick P = some (⟨s.manager.tick + 1, timers⟩, flag, l) ∧
      (flag = true ↔ ∃ t ∈ tasks, t.timeout ≤ s.manager.tick + 1) ∧
      l.Pairwise (·.timeout ≤ ·.timeout) ∧
      (l : Multiset Timer) = (pending s.added s.manager.tick).filter (Due (s.manager.tick + 1)) ∧
      P.contents timers = ⟨sentinelTimeout, 0, 0⟩ ::ₘ
        (tasks.filter (fun t => s.manager.tick + 1 < t.timeout) +
          (tasks.filter (TaskDue (s.manager.tick + 1))).map (fun _ => rearmed (s.manager.tick + 1)) +
          pending s.added (s.manager.tick + 1)) := by
  obtain ⟨hlate, hdue, htask⟩ := H.tick_filter hlt
  by_cases hcan : CanRearm P s
  · refine .inr ⟨hcan, ?_⟩
    obtain ⟨timers, flag, l, hloop, hflag, hsorted, hl, hcont⟩ := tickLoop_spec (P := P)
      ((P.contents s.manager.timers).card + 1) s.manager.timers false []
      ⟨⟨sentinelTimeout, 0, 0⟩, H.contents ▸ Multiset.mem_cons_self _ _, hlt⟩
      (fun t ht h => by
        have := hcan t ht h
        rw [rearmed, Nat.mod_eq_of_lt this]
        exact Nat.lt_add_of_pos_right (by decide))
      (Nat.lt_succ_of_le (Multiset.card_le_card (Multiset.filter_le _ _)))
    refine ⟨timers, flag, l, ?_, ?_, hsorted, hl.trans hdue, ?_⟩
    · simp only [doTick, tick_mod hlt, hloop, List.nil_append]
    · rw [hflag]
      simp only [Bool.false_eq_true, false_or]
      have hmem (t : Timer) : t ∈ P.contents s.manager.timers ∧ TaskDue (s.manager.tick + 1) t ↔
          t ∈ tasks ∧ TaskDue (s.manager.tick + 1) t := by
        rw [← Multiset.mem_filter, htask, Multiset.mem_filter]
      refine exists_congr fun t => (hmem t).trans ?_
      exact and_congr_right fun ht => and_iff_left (H.tasks_value t ht)
    · rw [hcont, hlate, htask, Multiset.cons_add, add_right_comm]
  · refine .inl ⟨hcan, ?_⟩
    simp only [CanRearm, not_forall] at hcan
    obtain ⟨t, ht, hdue, hwrap⟩ := hcan
    have hle : (rearmed (s.manager.tick + 1)).timeout ≤ s.manager.tick + 1 := by
      have : sentinelTimeout = 2 ^ 64 - 1 := rfl
      have : kTaskTimerPeriod = 2 := rfl
      simp only [rearmed]
      omega
    simp only [doTick, tick_mod hlt, tickLoop_eq_none false [] ⟨t, ht, hdue⟩ hle]

/-- One tick. -/
theorem tick (H : Inv P s tasks) (hs : s.step P .tick = some s') : ∃ tasks', Inv P s' tasks' := by
  simp only [step, Option.ite_none_right_eq_some, Option.bind_eq_bind,
    Option.bind_eq_some_iff] at hs
  obtain ⟨hlt, ⟨manager, flag, l⟩, hdo, hs⟩ := hs
  obtain ⟨-, hnone⟩ | ⟨hcan, timers, flag₁, l₁, hdo', hflag, hsorted, hl, hcont⟩ :=
    H.doTick_spec hlt
  · rw [hnone] at hdo
    cases hdo
  rw [hdo'] at hdo
  cases hdo
  cases hs
  have hsent : ((s.sent ++ l.map (·, s.manager.tick + 1) : List (Timer × Nat)) :
      Multiset (Timer × Nat)) = delivered s.added (s.manager.tick + 1) := by
    rw [← Multiset.coe_add, H.sent, ← Multiset.map_coe, hl, pending_filter_due H.inserted,
      delivered_succ]
  have hpair : (s.sent ++ l.map (·, s.manager.tick + 1)).Pairwise
      fun a b => a.2 < b.2 ∨ a.2 = b.2 ∧ a.1.timeout ≤ b.1.timeout := by
    refine List.pairwise_append.mpr ⟨H.sorted, ?_, fun a ha b hb => .inl ?_⟩
    · exact List.pairwise_map.mpr (hsorted.imp fun h => .inr ⟨rfl, h⟩)
    · -- an earlier message has an earlier tick
      obtain ⟨t, -, rfl⟩ := List.mem_map.mp hb
      have ha : a ∈ (s.sent : Multiset (Timer × Nat)) := ha
      rw [H.sent, delivered] at ha
      obtain ⟨c, hc, rfl⟩ := Multiset.mem_map.mp ha
      exact Nat.lt_succ_of_le (Multiset.mem_filter.mp hc).2
  have hins : ∀ a ∈ s.added, a.2 ≤ s.manager.tick + 1 ∧ a.1.value ≠ kTaskTimerValue :=
    fun a ha => ⟨(H.inserted a ha).1.trans (Nat.le_succ _), (H.inserted a ha).2⟩
  rcases H.tasks with ⟨hnone, rfl, hsw⟩ | ⟨a, e, ha, rfl, he⟩
  · have hflag' : flag ≠ true := fun h => by
      obtain ⟨t, ht, -⟩ := hflag.mp h
      exact Multiset.notMem_zero t ht
    refine ⟨0, hlt, hins, ?_, .inl ⟨hnone, rfl, ?_⟩, hsent, hpair⟩
    · simpa using hcont
    · simp only [if_neg hflag', hsw]
  · have hflag' : flag = true ↔ e.1.timeout ≤ s.manager.tick + 1 := by
      rw [hflag]
      simp only [Multiset.mem_singleton, exists_eq_left]
    by_cases hdue : e.1.timeout ≤ s.manager.tick + 1
    · have htask : TaskDue (s.manager.tick + 1) e.1 := ⟨hdue, he.value⟩
      have hmem : e.1 ∈ P.contents s.manager.timers := by
        rw [H.contents]
        exact Multiset.mem_cons_of_mem (Multiset.mem_add.mpr (.inl (Multiset.mem_singleton_self _)))
      refine ⟨{rearmed (s.manager.tick + 1)}, hlt, hins, ?_,
        .inr ⟨a, (rearmed (s.manager.tick + 1), s.manager.tick + 1), ha, rfl, ?_⟩, hsent, hpair⟩
      · rw [hcont, Multiset.filter_singleton, if_neg (Nat.not_lt.mpr hdue),
          Multiset.filter_singleton, if_pos htask, Multiset.map_singleton]
        simp
      · simp only [if_pos (hflag'.mpr hdue)]
        exact he.fire hdue (hcan _ hmem htask)
    · have htask : ¬ TaskDue (s.manager.tick + 1) e.1 := fun h => hdue h.1
      refine ⟨{e.1}, hlt, hins, ?_, .inr ⟨a, e, ha, rfl, ?_⟩, hsent, hpair⟩
      · rw [hcont, Multiset.filter_singleton, if_pos (Nat.not_le.mp hdue),
          Multiset.filter_singleton, if_neg htask]
        simp
      · simp only [if_neg (mt hflag'.mp hdue)]
        exact he.wait (Nat.not_le.mp hdue)

theorem step (H : Inv P s tasks) {e : Event} (hs : s.step P e = some s') :
    ∃ tasks', Inv P s' tasks' := by
  cases e with
  | addTimer t =>
    simp only [TimerHistory.step] at hs
    split at hs
    · rename_i ht
      obtain ⟨hnone, hs⟩ := Option.ite_none_right_eq_some.mp hs
      cases hs
      exact ⟨_, H.addTask ht (Option.isNone_iff_eq_none.mp hnone)⟩
    · rename_i ht
      cases hs
      exact ⟨_, H.add ht⟩
  | tick => exact H.tick hs

theorem run {es : List Event} (h : (system P).Run (TimerHistory.init P) es s) :
    ∃ tasks, Inv P s tasks := by
  refine h.invariant (I := fun s => ∃ tasks, Inv P s tasks) (fun s e s' hi hs => ?_) ⟨0, init⟩
  obtain ⟨tasks, H⟩ := hi
  exact H.step hs

theorem isSome_tick (H : Inv P s tasks) (hlt : s.manager.tick + 1 < sentinelTimeout) :
    (s.step P .tick).isSome ↔ CanRearm P s := by
  obtain ⟨hnot, hnone⟩ | ⟨hcan, timers, flag, l, hdo, -⟩ := H.doTick_spec hlt
  · simp [TimerHistory.step, hlt, hnone, hnot]
  · simp [TimerHistory.step, hlt, hdo, hcan]

end Inv

/-- The message of every timer is sent exactly once, at the first tick at which it is due, those of one
tick in the order of their timeouts. The task timer is in the queue once and due every other tick; a
tick returns just when the timer can be put back, and the queue is never empty. -/
theorem timers_delivered {es : List Event} (h : (system P).Run (init P) es s) :
    ((s.sent.map fun a => (a.2, a.1.message) : List (Nat × Nat × Message)) : Multiset _) =
      (s.added.filter fun a => due a ≤ s.manager.tick).map (fun a => (due a, a.1.message)) ∧
    s.sent.Pairwise (fun a b => a.2 < b.2 ∨ a.2 = b.2 ∧ a.1.timeout ≤ b.1.timeout) ∧
    ((P.contents s.manager.timers).filter (·.value = kTaskTimerValue)).card =
      (if s.task.isSome then 1 else 0) ∧
    (∀ n, n ∈ s.switched ↔ ∃ a, s.task = some a ∧ due a ≤ n ∧ n ≤ s.manager.tick ∧
      (n - due a) % kTaskTimerPeriod = 0) ∧
    P.contents s.manager.timers ≠ 0 ∧
    (s.manager.tick + 1 < sentinelTimeout → ((s.step P .tick).isSome ↔ CanRearm P s)) := by
  obtain ⟨tasks, H⟩ := Inv.run h
  refine ⟨?_, H.sorted, ?_, ?_, ?_, H.isSome_tick⟩
  · have hsent := congrArg (Multiset.map fun a : Timer × Nat => (a.2, a.1.message)) H.sent
    rw [delivered, Multiset.map_map, Multiset.map_coe] at hsent
    exact hsent
  · have hpending : (pending s.added s.manager.tick).filter (·.value = kTaskTimerValue) = 0 := by
      refine Multiset.filter_eq_nil.mpr fun t ht hv => ?_
      obtain ⟨a, ha, rfl⟩ := Multiset.mem_map.mp ht
      exact (H.inserted a (Multiset.mem_of_mem_filter ha)).2 hv
    rw [H.contents, Multiset.filter_cons_of_neg (p := fun t : Timer => t.value = kTaskTimerValue) _
      (by decide), Multiset.filter_add, hpending, add_zero, Multiset.filter_eq_self.mpr H.tasks_value]
    rcases H.tasks with ⟨hnone, rfl, -⟩ | ⟨a, e, ha, rfl, -⟩
    · rw [hnone]
      rfl
    · rw [ha]
      rfl
  · intro n
    rcases H.tasks with ⟨hnone, -, hsw⟩ | ⟨a, e, ha, -, he⟩
    · simp [hnone, hsw]
    · rw [he.switched]
      simp [ha]
  · rw [H.contents]
    exact Multiset.cons_ne_zero

/-- A task timer for tick 2 and three messages, one of them late, over four ticks. -/
def fourTicks : List Event := [
  .addTimer ⟨2, kTaskTimerValue, 1⟩, .addTimer ⟨2, 7, 3⟩, .addTimer ⟨1, 8, 3⟩, .tick, .tick,
  .addTimer ⟨0, 9, 4⟩, .tick, .tick]

theorem timers_delivered_fourTicks :
    let P := PriorityQueue.ofList Timer.timeout
    ∃ s, (system P).exec (init P) fourTicks = some s ∧ s.sent.map Prod.snd = [1, 2, 3] ∧
      ∀ n, n ∈ s.switched ↔ ∃ a, s.task = some a ∧ due a ≤ n ∧ n ≤ s.manager.tick ∧
        (n - due a) % kTaskTimerPeriod = 0 := by
  intro P
  have h : ((system P).exec (init P) fourTicks).map (fun s => s.sent.map Prod.snd) =
      some [1, 2, 3] := by decide +kernel
  obtain ⟨s, hs, hsent⟩ := Option.map_eq_some_iff.mp h
  have hrun := Transition.System.run_of_exec hs
  exact ⟨s, hs, hsent, (timers_delivered hrun).2.2.2.1⟩

/-! ## The last ticks -/

/-- Ticks at which nothing is due. -/
theorem run_idle {n : Nat} (hne : P.contents s.manager.timers ≠ 0)
    (hlate : ∀ t ∈ P.contents s.manager.timers, s.manager.tick + n < t.timeout)
    (hlt : s.manager.tick + n < sentinelTimeout) :
    (system P).Run s (List.replicate n .tick)
      { s with manager := ⟨s.manager.tick + n, s.manager.timers⟩ } := by
  induction n generalizing s with
  | zero => exact .nil
  | succ n ih =>
    obtain ⟨t, htop⟩ := P.exists_top hne
    have hlt₁ : s.manager.tick + 1 < sentinelTimeout := by omega
    have ht : t.timeout > s.manager.tick + 1 := by
      have := hlate t (P.mem_of_top htop)
      omega
    have hstep : s.step P .tick =
        some { s with manager := ⟨s.manager.tick + 1, s.manager.timers⟩ } := by
      have hdo : s.manager.doTick P = some (⟨s.manager.tick + 1, s.manager.timers⟩, false, []) := by
        simp only [doTick, Inv.tick_mod hlt₁, tickLoop, htop, if_pos ht]
      simp [step, hlt₁, hdo]
    have hrest := ih (s := { s with manager := ⟨s.manager.tick + 1, s.manager.timers⟩ }) hne
      (fun t ht => by
        have := hlate t ht
        simp only
        omega) (by simp only; omega)
    rw [List.replicate_succ]
    simp only [Nat.add_assoc, Nat.add_comm 1 n] at hrest
    exact .cons hstep hrest

/-- With the task timer due at tick `2 ^ 64 - 2`, that tick puts it back with the timeout 0 and never
returns. -/
theorem not_timers_delivered_wrap :
    let P := PriorityQueue.ofList Timer.timeout
    ∃ s, (system P).Run (init P) (.addTimer ⟨2 ^ 64 - 2, kTaskTimerValue, 1⟩ ::
        List.replicate (2 ^ 64 - 3) .tick) s ∧
      s.manager.tick + 1 < sentinelTimeout ∧
      ∀ fuel, tickLoop P (s.manager.tick + 1) fuel s.manager.timers false [] = none := by
  intro P
  let s₁ : TimerHistory (List Timer) :=
    ⟨⟨0, [⟨2 ^ 64 - 2, kTaskTimerValue, 1⟩, ⟨sentinelTimeout, 0, 0⟩]⟩, 0,
      some (⟨2 ^ 64 - 2, kTaskTimerValue, 1⟩, 0), [], []⟩
  have hadd : (init P).step P (.addTimer ⟨2 ^ 64 - 2, kTaskTimerValue, 1⟩) = some s₁ := rfl
  have hlate : ∀ t ∈ P.contents s₁.manager.timers, s₁.manager.tick + (2 ^ 64 - 3) < t.timeout := by
    decide
  have hidle := run_idle (P := P) (s := s₁) (n := 2 ^ 64 - 3)
    (fun h => absurd (congrArg Multiset.card h) (by decide)) hlate (by decide)
  refine ⟨_, .cons hadd hidle, by decide, fun fuel => ?_⟩
  refine tickLoop_eq_none false [] ⟨⟨2 ^ 64 - 2, kTaskTimerValue, 1⟩, ?_, by decide⟩ (by decide)
  exact List.mem_cons_self

end TimerHistory

end MikanOS
