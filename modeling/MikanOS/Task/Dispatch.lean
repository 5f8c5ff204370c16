import MikanOS.Task.System

/-! # Queue representation and priority dispatch

What the invariant of the scheduler says about reachable states, in the words of the task
manager's data: where a task stands in the queues, whose context is saved, and which task gets the
CPU. -/

namespace MikanOS.Cpu

open LevelQueues

variable {Ctx : Type} {cpu : Cpu Ctx} {mainCtx idleCtx regs : Ctx}

/-- The queues of all levels, one behind the other. -/
def allQueues (cpu : Cpu Ctx) : List Nat :=
  (List.range (kMaxLevel + 1)).flatMap cpu.tm.running

/-- The run queues hold the runnable tasks, each once and at its own level, and the front of the
current queue is the task that executes. -/
structure QueuesHoldRunnable (cpu : Cpu Ctx) : Prop where
  running_once : ∀ t ∈ cpu.tm.tasks, (cpu.tm.task t).running = true →
    cpu.allQueues.count t = 1 ∧ t ∈ cpu.tm.running (cpu.tm.task t).level
  sleeping_nowhere : ∀ t, (cpu.tm.task t).running = false → ∀ l, t ∉ cpu.tm.running l
  owned : ∀ l, ∀ t ∈ cpu.tm.running l, t ∈ cpu.tm.tasks
  level_le : ∀ l, cpu.tm.running l ≠ [] → l ≤ kMaxLevel
  current_nonempty : cpu.tm.running cpu.tm.currentLevel ≠ []
  front_executing : (cpu.tm.running cpu.tm.currentLevel).head? = some cpu.executing

/-- Of all contexts, only that of the executing task changes, to `saved`. -/
def SavesInto (cpu cpu' : Cpu Ctx) (saved : Ctx) : Prop :=
  ∀ u, (cpu'.tm.task u).context =
    if u = cpu.executing then saved else (cpu.tm.task u).context

theorem Switched.savesInto {cpu' : Cpu Ctx} (h : Switched cpu cpu' saved) :
    SavesInto cpu cpu' saved := by
  intro u
  split
  · rename_i hu
    exact hu ▸ h.saves
  · rename_i hu
    exact h.frame u hu

theorem Inv.queuesHoldRunnable (H : Inv cpu) : QueuesHoldRunnable cpu where
  running_once := by
    intro t ht hrun
    have hr : cpu.tm.runnable t = some (cpu.tm.task t).level :=
      TaskManager.runnable_eq_some.mpr ⟨ht, hrun, rfl⟩
    exact ⟨H.sched.queues.count_eq_one hr (H.sched.level_le t),
      (H.sched.queues.mem_iff _ t).mpr hr⟩
  sleeping_nowhere := by
    intro t hrun l hmem
    have hr := (H.sched.queues.mem_iff l t).mp hmem
    exact Bool.false_ne_true (hrun.symm.trans (TaskManager.runnable_eq_some.mp hr).2.1)
  owned := fun l t hmem =>
    (TaskManager.runnable_eq_some.mp ((H.sched.queues.mem_iff l t).mp hmem)).1
  level_le := by
    intro l hne
    obtain ⟨t, ht⟩ := List.exists_mem_of_ne_nil _ hne
    exact H.sched.level_of_runnable ((H.sched.queues.mem_iff l t).mp ht)
  current_nonempty := fun h => by simpa [h] using H.sched.head
  front_executing := H.sched.head

/-- In every reachable state the queues hold the runnable tasks, the current queue's front
executes, and `SwitchTask` and `Sleep` save the context into the task that executes. -/
theorem queues_hold_runnable (h : system.Reachable (init mainCtx idleCtx regs) cpu) :
    QueuesHoldRunnable cpu ∧
    (∀ ctx, SavesInto cpu (cpu.switchTask ctx) ctx) ∧
    (cpu.executing ≠ kIdleTask → SavesInto cpu (cpu.sleep cpu.executing) cpu.regs) ∧
    ∀ t ∈ cpu.tm.tasks, t ≠ cpu.executing → t ≠ kIdleTask →
      (cpu.sleep t).executing = cpu.executing ∧
        ∀ u, ((cpu.sleep t).tm.task u).context = (cpu.tm.task u).context := by
  have H := Inv.reachable h
  refine ⟨H.queuesHoldRunnable, fun ctx => ?_, fun hidle => ?_, fun t ht hne hidle => ?_⟩
  · exact (switchTask_spec H.sched ctx).1.savesInto
  · exact (sleep_executing H.sched hidle).1.savesInto
  · exact sleep_other H.sched hne

/-- A new task is woken at a high level and preempts the main task, which it then wakes from its
sleep. -/
theorem queues_hold_runnable_preempted :
    let cpu := (system.exec (init 0 0 0 : Cpu Nat)
      [.newTask 5, .wakeup 3 3, .switchTask, .run 7, .sleep 1, .wakeup 1 2]).get rfl
    QueuesHoldRunnable cpu ∧
    (∀ ctx, SavesInto cpu (cpu.switchTask ctx) ctx) ∧
    (cpu.executing ≠ kIdleTask → SavesInto cpu (cpu.sleep cpu.executing) cpu.regs) ∧
    ∀ t ∈ cpu.tm.tasks, t ≠ cpu.executing → t ≠ kIdleTask →
      (cpu.sleep t).executing = cpu.executing ∧
        ∀ u, ((cpu.sleep t).tm.task u).context = (cpu.tm.task u).context :=
  queues_hold_runnable (Transition.System.reachable_of_exec (Option.some_get _).symm)

/-! ## Priority -/

/-- The executing task is the head of the highest queue that is not empty, so that no runnable
task has a higher level. -/
def Dispatched (cpu : Cpu Ctx) : Prop :=
  ∃ lv, IsTop cpu.tm.running lv ∧ (cpu.tm.running lv).head? = some cpu.executing ∧
    ∀ t ∈ cpu.tm.tasks, (cpu.tm.task t).running = true → (cpu.tm.task t).level ≤ lv

theorem dispatched_of_sched (H : cpu.tm.Sched cpu.executing) (hch : cpu.tm.levelChanged = false) :
    Dispatched cpu := by
  have htop := H.top hch
  refine ⟨_, htop, H.head, fun t ht hrun => ?_⟩
  have hr : cpu.tm.runnable t = some (cpu.tm.task t).level :=
    TaskManager.runnable_eq_some.mpr ⟨ht, hrun, rfl⟩
  exact htop.le_top _ (H.queues.exists_mem hr)

theorem Switched.dispatched {cpu' : Cpu Ctx} (h : Switched cpu cpu' saved) : Dispatched cpu' :=
  dispatched_of_sched h.sched h.levelChanged

/-- In every reachable state the current level is the highest one with a task unless
`level_changed_` is set, and right after `SwitchTask`, after a task puts itself to sleep, and after
`WaitFinish` does so for it, the head of the highest queue executes. -/
theorem dispatches_highest (h : system.Reachable (init mainCtx idleCtx regs) cpu) :
    (cpu.tm.levelChanged = false → IsTop cpu.tm.running cpu.tm.currentLevel) ∧
    (∀ ctx, Dispatched (cpu.switchTask ctx)) ∧
    (cpu.executing ≠ kIdleTask → Dispatched (cpu.sleep cpu.executing)) ∧
    (∀ taskId, cpu.executing ≠ kIdleTask → (cpu.waitFinish taskId).1 = none →
      Dispatched (cpu.waitFinish taskId).2) ∧
    ∀ w, cpu.waiting cpu.executing = some w → (cpu.waitFinishLoop w).1 = none →
      Dispatched (cpu.waitFinishLoop w).2 := by
  have H := Inv.reachable h
  have hloop : ∀ w : WaitLoop, cpu.executing ≠ kIdleTask → w.currentTask = cpu.executing →
      (cpu.waitFinishLoop w).1 = none → Dispatched (cpu.waitFinishLoop w).2 := by
    intro w hidle hself hnone
    cases hcode : cpu.tm.finishTasks w.taskId with
    | some exitCode => simp [waitFinishLoop_some hcode] at hnone
    | none =>
      obtain ⟨cpu', heq, hsw, -⟩ := waitFinishLoop_none H.sched hidle hself hcode
      rw [heq]
      exact hsw.dispatched
  refine ⟨H.sched.top, fun ctx => ?_, fun hidle => ?_, fun taskId hidle => ?_, fun w hw => ?_⟩
  · exact (switchTask_spec H.sched ctx).1.dispatched
  · exact (sleep_executing H.sched hidle).1.dispatched
  · exact hloop ⟨taskId, cpu.tm.currentTask⟩ hidle H.sched.currentTask_eq
  · obtain ⟨-, hidle, hself⟩ := H.loop _ w hw
    exact hloop w hidle hself

/-- The main task waits for a task of a lower level while a wake-up is still deferred. -/
theorem dispatches_highest_deferred :
    let cpu := (system.exec (init 0 0 0 : Cpu Nat)
      [.newTask 5, .wakeup 3 1, .waitFinish 3, .wakeup 1 2]).get rfl
    (cpu.tm.levelChanged = false → IsTop cpu.tm.running cpu.tm.currentLevel) ∧
    (∀ ctx, Dispatched (cpu.switchTask ctx)) ∧
    (cpu.executing ≠ kIdleTask → Dispatched (cpu.sleep cpu.executing)) ∧
    (∀ taskId, cpu.executing ≠ kIdleTask → (cpu.waitFinish taskId).1 = none →
      Dispatched (cpu.waitFinish taskId).2) ∧
    ∀ w, cpu.waiting cpu.executing = some w → (cpu.waitFinishLoop w).1 = none →
      Dispatched (cpu.waitFinishLoop w).2 :=
  dispatches_highest (Transition.System.reachable_of_exec (Option.some_get _).symm)

/-! ## `Finish` -/

/-- The head of the highest queue that is not empty executes, and the registers are its context. -/
def RestoresTop (cpu : Cpu Ctx) : Prop :=
  Dispatched cpu ∧ cpu.regs = (cpu.tm.task cpu.executing).context

/-- The task that is registered for the executing task sleeps, and its level is above those of all
other tasks that are runnable. -/
def WaiterAbove (cpu : Cpu Ctx) : Prop :=
  ∃ w, cpu.tm.finishWaiter cpu.executing = some w ∧ (cpu.tm.task w).running = false ∧
    ∀ t ∈ cpu.tm.tasks, t ≠ cpu.executing → (cpu.tm.task t).running = true →
      (cpu.tm.task t).level < (cpu.tm.task w).level

/-- Where the executing task was dispatched, it still is when a task of its level or below is woken, and
is not when one of a higher level is. -/
theorem dispatched_wakeup_iff {tm : TaskManager Ctx} {w : Nat} (H : tm.Sched cpu.executing)
    (hw : w ∈ tm.tasks) (hch : tm.levelChanged = false) (hcpu : cpu.tm = tm.wakeup w (-1)) :
    Dispatched cpu ↔ ((tm.task w).running = false → (tm.task w).level ≤ tm.currentLevel) := by
  have H' := H.wakeup hw (show (-1 : Int) ≤ kMaxLevel by decide)
  rw [← hcpu] at H'
  cases hrun : (tm.task w).running with
  | true =>
    rw [TaskManager.wakeup_of_running hrun] at hcpu
    exact iff_of_true (dispatched_of_sched H' (hcpu ▸ hch)) fun h => by cases h
  | false =>
    rw [TaskManager.wakeup_of_sleeping hrun] at hcpu
    constructor
    · rintro ⟨lv, htop, hhead, -⟩ -
      have hwake : cpu.tm.running (tm.task w).level ≠ [] := by
        have hself : cpu.tm.running (tm.task w).level = tm.running (tm.task w).level ++ [w] := by
          rw [hcpu]
          exact Function.update_self ..
        rw [hself]
        exact List.append_ne_nil_of_right_ne_nil _ (List.cons_ne_nil w [])
      -- the executing task is in one queue only
      have hlv := (H'.queues.mem_iff lv _).mp (List.mem_of_mem_head? hhead)
      rw [H'.runnable_executing] at hlv
      have hcur : cpu.tm.currentLevel = tm.currentLevel := by rw [hcpu]; rfl
      have hle := htop.le_top _ hwake
      rw [← Option.some.inj hlv, hcur] at hle
      exact hle
    · intro hle
      refine dispatched_of_sched H' ?_
      rw [hcpu]
      exact Bool.or_eq_false_iff.mpr ⟨hch, decide_eq_false (Nat.not_lt.mpr (hle rfl))⟩

/-- `Finish` takes the executing task off its queue, chooses the level, wakes the task that is registered,
and restores the head of the queue at the level chosen before. -/
theorem finish_eq (H : cpu.tm.Sched cpu.executing) (hidle : cpu.executing ≠ kIdleTask)
    (exitCode : Int) : ∃ tm : TaskManager Ctx,
      tm.Sched tm.currentTask ∧ tm.levelChanged = false ∧
      tm.tasks = cpu.tm.tasks.erase cpu.executing ∧ tm.task = cpu.tm.task ∧
      tm.running = Function.update cpu.tm.running cpu.tm.currentLevel
        (cpu.tm.running cpu.tm.currentLevel).tail ∧
      cpu.finish exitCode =
        let tm := match cpu.tm.finishWaiter cpu.executing with
          | some w => tm.wakeup w (-1)
          | none => tm
        { cpu with tm }.restoreContext tm.currentTask := by
  obtain ⟨tm', heq, hsched, running, currentLevel, hfields⟩ := H.finishSelf hidle
  have hrunning : tm'.running = _ :=
    (congrArg (fun r => r.2.running) heq).symm.trans (TaskManager.rotate_running H.cons_eq true)
  have hwaiter : tm'.finishWaiter = cpu.tm.finishWaiter := by rw [hfields]
  refine ⟨{ tm' with
      tasks := tm'.tasks.erase cpu.executing
      finishTasks := Function.update tm'.finishTasks cpu.executing (some exitCode)
      finishWaiter := Function.update cpu.tm.finishWaiter cpu.executing none },
    hsched.congr rfl rfl rfl rfl rfl (fun _ => rfl) fun _ => rfl, ?_, ?_, ?_, hrunning, ?_⟩
  · rw [hfields]
  · rw [hfields]
  · rw [hfields]
  · simp only [finish, heq, hwaiter]
    cases hw : cpu.tm.finishWaiter cpu.executing with
    | none =>
      have hself : Function.update cpu.tm.finishWaiter cpu.executing none = cpu.tm.finishWaiter := by
        rw [← hw, Function.update_eq_self]
      simp only [hself]
    | some w => rfl

/-- `Finish` restores the head of the highest queue if and only if the task that it wakes is not
above the others. -/
theorem finish_restoresTop_iff (h : system.Reachable (init mainCtx idleCtx regs) cpu)
    (hidle : cpu.executing ≠ kIdleTask) (hnot : cpu.waiting cpu.executing = none) (exitCode : Int) :
    RestoresTop (cpu.finish exitCode) ↔ ¬WaiterAbove cpu := by
  have H := Inv.reachable h
  obtain ⟨tm, hsched, hch, htasks, htask, -, hfinish⟩ := finish_eq H.sched hidle exitCode
  have hregs : (cpu.finish exitCode).regs =
      ((cpu.finish exitCode).tm.task (cpu.finish exitCode).executing).context := by
    rw [hfinish]
    rfl
  rw [RestoresTop, and_iff_left hregs]
  cases hw : cpu.tm.finishWaiter cpu.executing with
  | none =>
    simp only [hw] at hfinish
    have hnone : ¬WaiterAbove cpu := by
      rintro ⟨w, hw', -⟩
      rw [hw] at hw'
      cases hw'
    refine iff_of_true (dispatched_of_sched ?_ ?_) hnone
    · rw [hfinish]
      exact hsched
    · rw [hfinish]
      exact hch
  | some w =>
    simp only [hw] at hfinish
    obtain ⟨hmem, hne⟩ := H.waiter_mem hnot hw
    have hwmem : w ∈ tm.tasks := by
      rw [htasks]
      exact (List.mem_erase_of_ne hne).mpr hmem
    have hwake := hsched.wakeup hwmem (show (-1 : Int) ≤ kMaxLevel by decide)
    have hexec : (cpu.finish exitCode).executing = tm.currentTask := by
      rw [hfinish]
      exact hwake.currentTask_eq
    have htm : (cpu.finish exitCode).tm = tm.wakeup w (-1) := by
      rw [hfinish]
      rfl
    rw [dispatched_wakeup_iff (hexec ▸ hsched) hwmem hch htm, htask]
    -- the chosen level is the highest one of the tasks that are left
    have htop := hsched.top hch
    constructor
    · rintro hle ⟨w', hw', hsleep, habove⟩
      obtain rfl : w = w' := Option.some.inj (hw.symm.trans hw')
      obtain ⟨hcur, hcurrun, hcurlevel⟩ := TaskManager.runnable_eq_some.mp hsched.runnable_executing
      rw [htask] at hcurrun hcurlevel
      rw [htasks, H.sched.tasks_nodup.mem_erase_iff] at hcur
      have hlt := habove _ hcur.2 hcur.1 hcurrun
      rw [hcurlevel] at hlt
      exact Nat.not_lt.mpr (hle hsleep) hlt
    · intro habove hsleep
      by_contra hlt
      refine habove ⟨w, hw, hsleep, fun t ht hte hrun => (Nat.lt_of_le_of_lt ?_ (Nat.not_le.mp hlt))⟩
      have hr : tm.runnable t = some (cpu.tm.task t).level := by
        rw [TaskManager.runnable_eq_some, htasks, htask]
        exact ⟨(List.mem_erase_of_ne hte).mpr ht, hrun, rfl⟩
      exact htop.le_top _ (hsched.queues.exists_mem hr)

/-- A task finishes while no task waits for it. -/
theorem finish_restoresTop_iff_alone :
    let cpu := (system.exec (init 0 0 0 : Cpu Nat)
      [.newTask 5, .wakeup 3 3, .switchTask]).get rfl
    RestoresTop (cpu.finish 0) ↔ ¬WaiterAbove cpu :=
  finish_restoresTop_iff (Transition.System.reachable_of_exec (Option.some_get _).symm)
    (by decide) rfl 0

/-- The main task waits at level 3 for a task of level 1. When that one finishes, the idle task is
restored and not the main task. -/
theorem not_finish_restoresTop :
    let cpu := (system.exec (init 0 0 0 : Cpu Nat)
      [.newTask 5, .wakeup 3 1, .waitFinish 3]).get rfl
    (cpu.finish 0).executing = kIdleTask ∧ ¬RestoresTop (cpu.finish 0) := by
  refine ⟨rfl, fun h => ?_⟩
  obtain ⟨⟨lv, -, hhead, hle⟩, -⟩ := h
  have H : Inv ((system.exec (init 0 0 0 : Cpu Nat)
      [.newTask 5, .wakeup 3 1, .waitFinish 3, .finish 0]).get rfl) :=
    .reachable (Transition.System.reachable_of_exec (Option.some_get _).symm)
  have hidle : some 0 = some lv := (H.sched.queues.mem_iff lv kIdleTask).mp (List.mem_of_mem_head? hhead)
  have hmain : 3 ≤ lv := hle 1 (by decide) rfl
  rw [← Option.some.inj hidle] at hmain
  exact absurd hmain (by decide)

end MikanOS.Cpu
