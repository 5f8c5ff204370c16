import MikanOS.Library.Transition
import MikanOS.Task.Scheduler

/-! # Runs of the scheduler

The events are the calls of the task manager, made by the executing task or by interrupt handlers,
and steps of the executing task that change its registers. A task inside `WaitFinish` does not
call `Finish` or `WaitFinish` before that call returns. -/

namespace MikanOS

open LevelQueues

variable {Ctx : Type}

/-! ## What the operations leave alone -/

namespace TaskManager

variable (tm : TaskManager Ctx) (t u : Nat) (level : Int)

/-- What `Wakeup` keeps: everything but levels, queues and `Running()` of the woken task. -/
theorem wakeup_frame :
    let tm' := tm.wakeup t level
    tm'.tasks = tm.tasks ∧ tm'.latestId = tm.latestId ∧ tm'.finishTasks = tm.finishTasks ∧
      tm'.finishWaiter = tm.finishWaiter ∧
      (∀ u, (tm'.task u).context = (tm.task u).context) ∧
      ∀ u, (tm'.task u).running = (decide (u = t) || (tm.task u).running) := by
  simp only [wakeup, changeLevelRunning]
  split
  · rename_i hrun
    have hself : ∀ u, (tm.task u).running = (decide (u = t) || (tm.task u).running) := by
      intro u
      by_cases h : u = t
      · simp [h, hrun]
      · simp [h]
    have hlevel : ∀ l u, ((tm.setLevel t l).task u).context = (tm.task u).context ∧
        ((tm.setLevel t l).task u).running = (tm.task u).running := by
      intro l u
      by_cases h : u = t <;> simp [setLevel, setTask, h]
    split
    · exact ⟨rfl, rfl, rfl, rfl, fun _ => rfl, hself⟩
    · have hfields : ∀ u, ((tm.setLevel t level.toNat).task u).running =
          (decide (u = t) || (tm.task u).running) := fun u => (hlevel _ u).2.trans (hself u)
      split <;> split <;> exact ⟨rfl, rfl, rfl, rfl, fun u => (hlevel _ u).1, hfields⟩
  · have hwake : ∀ l u, (((tm.setLevel t l).setRunning t true).task u).context =
        (tm.task u).context ∧ (((tm.setLevel t l).setRunning t true).task u).running =
          (decide (u = t) || (tm.task u).running) := by
      intro l u
      by_cases h : u = t <;> simp [setLevel, setRunning, setTask, h]
    generalize (if level < 0 then (tm.task t).level else level.toNat) = l
    split <;> exact ⟨rfl, rfl, rfl, rfl, fun u => (hwake l u).1, fun u => (hwake l u).2⟩

@[simp] theorem wakeup_tasks : (tm.wakeup t level).tasks = tm.tasks := (wakeup_frame ..).1

@[simp] theorem wakeup_latestId : (tm.wakeup t level).latestId = tm.latestId :=
  (wakeup_frame ..).2.1

@[simp] theorem wakeup_finishTasks : (tm.wakeup t level).finishTasks = tm.finishTasks :=
  (wakeup_frame ..).2.2.1

@[simp] theorem wakeup_finishWaiter : (tm.wakeup t level).finishWaiter = tm.finishWaiter :=
  (wakeup_frame ..).2.2.2.1

theorem wakeup_running :
    ((tm.wakeup t level).task u).running = (decide (u = t) || (tm.task u).running) :=
  (wakeup_frame ..).2.2.2.2.2 u

variable (id : Nat) (msg : Message)

@[simp] theorem sendMessage_tasks : (tm.sendMessage id msg).2.tasks = tm.tasks := by
  simp only [sendMessage]
  split <;> simp [setTask]

@[simp] theorem sendMessage_latestId :
    (tm.sendMessage id msg).2.latestId = tm.latestId := by
  simp only [sendMessage]
  split <;> simp [setTask]

@[simp] theorem sendMessage_finishTasks :
    (tm.sendMessage id msg).2.finishTasks = tm.finishTasks := by
  simp only [sendMessage]
  split <;> simp [setTask]

@[simp] theorem sendMessage_finishWaiter :
    (tm.sendMessage id msg).2.finishWaiter = tm.finishWaiter := by
  simp only [sendMessage]
  split <;> simp [setTask]

theorem sendMessage_running (h : (tm.task u).running = true) :
    (((tm.sendMessage id msg).2).task u).running = true := by
  simp only [sendMessage]
  split
  · rw [wakeup_running]
    by_cases hu : u = id <;> simp [setTask, hu, h]
  · exact h

end TaskManager

namespace Cpu

/-- The calls that may happen next. -/
inductive Event (Ctx : Type) where
  | run (regs : Ctx)
  | newTask (context : Ctx)
  | wakeup (task : Nat) (level : Int)
  | sendMessage (id : Nat) (msg : Message)
  | sleep (task : Nat)
  | switchTask
  | finish (exitCode : Int)
  | waitFinish (taskId : Nat)
  /-- The executing task goes on in the loop of its `WaitFinish` call. -/
  | waitLoop

/-- One event. Calls are made on live tasks; the idle task neither sleeps nor finishes. -/
def step (cpu : Cpu Ctx) : Event Ctx → Option (Cpu Ctx)
  | .run regs => some { cpu with regs }
  | .newTask context => some { cpu with tm := cpu.tm.newTask context }
  | .wakeup task level =>
    if task ∈ cpu.tm.tasks ∧ -1 ≤ level ∧ level ≤ kMaxLevel then
      some { cpu with tm := cpu.tm.wakeup task level }
    else none
  | .sendMessage id msg => some { cpu with tm := (cpu.tm.sendMessage id msg).2 }
  | .sleep task =>
    if task ∈ cpu.tm.tasks ∧ task ≠ kIdleTask then some (cpu.sleep task) else none
  | .switchTask => some (cpu.switchTask cpu.regs)
  | .finish exitCode =>
    if cpu.executing ≠ kIdleTask ∧ (cpu.waiting cpu.executing).isNone then
      some (cpu.finish exitCode)
    else none
  | .waitFinish taskId =>
    if cpu.executing ≠ kIdleTask ∧ (cpu.waiting cpu.executing).isNone then
      some (cpu.waitFinish taskId).2
    else none
  | .waitLoop => (cpu.waiting cpu.executing).map fun w => (cpu.waitFinishLoop w).2

def system : Transition.System (Cpu Ctx) (Event Ctx) := ⟨step⟩

/-- The invariant of the CPU and the task manager. Whoever is registered in `finish_waiter_` is
alive and inside the `WaitFinish` call that registered it, so that no dead task is ever woken. -/
structure Inv (cpu : Cpu Ctx) : Prop where
  sched : cpu.tm.Sched cpu.executing
  registered : ∀ id w, cpu.tm.finishWaiter id = some w →
    ∃ l, cpu.waiting w = some l ∧ l.taskId = id
  loop : ∀ t l, cpu.waiting t = some l →
    t ∈ cpu.tm.tasks ∧ t ≠ kIdleTask ∧ l.currentTask = t
  disjoint : ∀ id, cpu.tm.finishTasks id = none ∨ cpu.tm.finishWaiter id = none

variable {cpu cpu' : Cpu Ctx}

/-! ## What the switching operations do -/

/-- The two processors' states have the same tasks, exit codes, waiters and `WaitFinish` calls. -/
structure SameCalls (cpu cpu' : Cpu Ctx) : Prop where
  tasks : cpu'.tm.tasks = cpu.tm.tasks
  latestId : cpu'.tm.latestId = cpu.tm.latestId
  finishTasks : cpu'.tm.finishTasks = cpu.tm.finishTasks
  finishWaiter : cpu'.tm.finishWaiter = cpu.tm.finishWaiter
  waiting : cpu'.waiting = cpu.waiting

/-- The task that was executing is saved with the context `saved`, and the one that executes now,
if it is another, was loaded. -/
structure Switched (cpu cpu' : Cpu Ctx) (saved : Ctx) : Prop where
  sched : cpu'.tm.Sched cpu'.executing
  levelChanged : cpu'.tm.levelChanged = false
  saves : (cpu'.tm.task cpu.executing).context = saved
  frame : ∀ u, u ≠ cpu.executing → (cpu'.tm.task u).context = (cpu.tm.task u).context
  loads : cpu'.executing ≠ cpu.executing → cpu'.regs = (cpu.tm.task cpu'.executing).context

theorem task_setContext (tm : TaskManager Ctx) (t u : Nat) (context : Ctx) :
    (tm.setContext t context).task u =
      { tm.task u with context := if u = t then context else (tm.task u).context } := by
  by_cases h : u = t
  · subst h
    simp [TaskManager.setContext, TaskManager.setTask]
  · simp [TaskManager.setContext, TaskManager.setTask, h]

theorem task_setRunning (tm : TaskManager Ctx) (t u : Nat) (running : Bool) :
    (tm.setRunning t running).task u =
      { tm.task u with running := if u = t then running else (tm.task u).running } := by
  by_cases h : u = t
  · subst h
    simp [TaskManager.setRunning, TaskManager.setTask]
  · simp [TaskManager.setRunning, TaskManager.setTask, h]

/-- `SwitchTask` saves the registers into the executing task and dispatches the top task. -/
theorem switchTask_spec (H : cpu.tm.Sched cpu.executing) (ctx : Ctx) :
    Switched cpu (cpu.switchTask ctx) ctx ∧ SameCalls cpu (cpu.switchTask ctx) ∧
      ∀ u, ((cpu.switchTask ctx).tm.task u).running = (cpu.tm.task u).running := by
  obtain ⟨tm', heq, hsched, hch, running, currentLevel, hfields⟩ :=
    (H.setContext cpu.executing ctx).rotate
  have htask : tm'.task = (cpu.tm.setContext cpu.executing ctx).task := by rw [hfields]
  have hcpu : cpu.switchTask ctx = { cpu with
      tm := tm'
      executing := tm'.currentTask
      regs := if tm'.currentTask ≠ cpu.executing then (tm'.task tm'.currentTask).context
        else cpu.regs } := by
    simp only [switchTask, H.currentTask_eq, heq]
    split
    · rfl
    · rename_i hsame
      have hsame : tm'.currentTask = cpu.executing := by simpa using hsame
      rw [← hsame]
  rw [hcpu]
  refine ⟨⟨hsched, hch, ?_, fun u hu => ?_, fun hne => ?_⟩, ⟨?_, ?_, ?_, ?_, rfl⟩, fun u => ?_⟩
  · simp [htask, task_setContext]
  · simp [htask, task_setContext, hu]
  · have hne : tm'.currentTask ≠ cpu.executing := hne
    simp [hne, htask, task_setContext]
  · rw [hfields]
    rfl
  · rw [hfields]
    rfl
  · rw [hfields]
    rfl
  · rw [hfields]
    rfl
  · simp [htask, task_setContext]

/-- A task that puts itself to sleep saves the registers into itself and dispatches the top
task. -/
theorem sleep_executing (H : cpu.tm.Sched cpu.executing) (hidle : cpu.executing ≠ kIdleTask) :
    Switched cpu (cpu.sleep cpu.executing) cpu.regs ∧
      SameCalls cpu (cpu.sleep cpu.executing) ∧
      ∀ u, ((cpu.sleep cpu.executing).tm.task u).running =
        if u = cpu.executing then false else (cpu.tm.task u).running := by
  obtain ⟨tm', heq, hsched, hch, running, currentLevel, hfields⟩ := H.sleepSelf hidle
  have htask : tm'.task = (cpu.tm.setRunning cpu.executing false).task := by rw [hfields]
  have hfront : TaskManager.front ((cpu.tm.setRunning cpu.executing false).running
      (cpu.tm.setRunning cpu.executing false).currentLevel) = cpu.executing := H.front_eq
  have hcpu : cpu.sleep cpu.executing =
      { cpu with tm := tm' }.switchContext tm'.currentTask cpu.executing := by
    rw [sleep, if_neg (by simp [H.executing_running])]
    simp only [hfront, heq, if_true]
  rw [hcpu]
  refine ⟨⟨hsched.setContext _ _, hch, ?_, fun u hu => ?_, fun hne => ?_⟩, ⟨?_, ?_, ?_, ?_, rfl⟩,
    fun u => ?_⟩
  · simp [switchContext, restoreContext, task_setContext]
  · simp [switchContext, restoreContext, task_setContext, task_setRunning, htask, hu]
  · have hne : tm'.currentTask ≠ cpu.executing := hne
    simp [switchContext, restoreContext, task_setContext, task_setRunning, htask, hne]
  · simp only [switchContext, restoreContext, TaskManager.setContext, hfields]
    rfl
  · simp only [switchContext, restoreContext, TaskManager.setContext, hfields]
    rfl
  · simp only [switchContext, restoreContext, TaskManager.setContext, hfields]
    rfl
  · simp only [switchContext, restoreContext, TaskManager.setContext, hfields]
    rfl
  · simp [switchContext, restoreContext, task_setContext, task_setRunning, htask]

/-- `Sleep` of a running task that is not executing erases it from its queue. -/
theorem sleep_other_eq (H : cpu.tm.Sched cpu.executing) (hother : t ≠ cpu.executing)
    (hrun : (cpu.tm.task t).running = true) : cpu.sleep t = { cpu with
      tm := (cpu.tm.setRunning t false).setQueue (cpu.tm.task t).level
        (TaskManager.erase (cpu.tm.running (cpu.tm.task t).level) t) } := by
  have hfront : t ≠ TaskManager.front ((cpu.tm.setRunning t false).running
      (cpu.tm.setRunning t false).currentLevel) := fun h => hother (h.trans H.front_eq)
  have hlevel : ((cpu.tm.setRunning t false).task t).level = (cpu.tm.task t).level := by
    rw [task_setRunning]
  rw [sleep, if_neg (by simp [hrun])]
  simp only [if_neg hfront, hlevel]
  rfl

/-- `Sleep` of a task that is not executing leaves the contexts and the CPU alone. -/
theorem sleep_other (H : cpu.tm.Sched cpu.executing) (hother : t ≠ cpu.executing) :
    (cpu.sleep t).executing = cpu.executing ∧
      ∀ u, ((cpu.sleep t).tm.task u).context = (cpu.tm.task u).context := by
  cases hrun : (cpu.tm.task t).running with
  | false =>
    rw [sleep, if_pos hrun]
    exact ⟨rfl, fun _ => rfl⟩
  | true =>
    rw [sleep_other_eq H hother hrun]
    refine ⟨rfl, fun u => ?_⟩
    show ((cpu.tm.setRunning t false).task u).context = _
    rw [task_setRunning]

/-- `Sleep` of any live task but the idle task. -/
theorem sleep_spec (H : cpu.tm.Sched cpu.executing) (ht : t ∈ cpu.tm.tasks)
    (hidle : t ≠ kIdleTask) :
    (cpu.sleep t).tm.Sched (cpu.sleep t).executing ∧ SameCalls cpu (cpu.sleep t) ∧
      ∀ u, ((cpu.sleep t).tm.task u).running =
        if u = t then false else (cpu.tm.task u).running := by
  by_cases hself : t = cpu.executing
  · subst hself
    obtain ⟨hsw, hcalls, hrun⟩ := sleep_executing H hidle
    exact ⟨hsw.sched, hcalls, hrun⟩
  · cases hrun : (cpu.tm.task t).running with
    | false =>
      have hcpu : cpu.sleep t = cpu := by rw [sleep, if_pos hrun]
      rw [hcpu]
      refine ⟨H, ⟨rfl, rfl, rfl, rfl, rfl⟩, fun u => ?_⟩
      split
      · rename_i hu
        rw [hu, hrun]
      · rfl
    | true =>
      rw [sleep_other_eq H hself hrun]
      refine ⟨H.sleepOther hself hidle (by simp [TaskManager.runnable, ht, hrun]),
        ⟨rfl, rfl, rfl, rfl, rfl⟩, fun u => ?_⟩
      show ((cpu.tm.setRunning t false).task u).running = _
      rw [task_setRunning]

/-- `Finish` removes the executing task, leaves its exit code and wakes the task registered for
it. -/
theorem finish_spec (H : cpu.tm.Sched cpu.executing) (hidle : cpu.executing ≠ kIdleTask)
    (hwaiter : ∀ w, cpu.tm.finishWaiter cpu.executing = some w →
      w ∈ cpu.tm.tasks ∧ w ≠ cpu.executing) (exitCode : Int) :
    let cpu' := cpu.finish exitCode
    cpu'.tm.Sched cpu'.executing ∧ cpu'.waiting = cpu.waiting ∧
      cpu'.tm.latestId = cpu.tm.latestId ∧
      cpu'.tm.tasks = cpu.tm.tasks.erase cpu.executing ∧
      cpu'.tm.finishTasks =
        Function.update cpu.tm.finishTasks cpu.executing (some exitCode) ∧
      cpu'.tm.finishWaiter = Function.update cpu.tm.finishWaiter cpu.executing none ∧
      ∀ u, (cpu'.tm.task u).running =
        (decide (cpu.tm.finishWaiter cpu.executing = some u) || (cpu.tm.task u).running) := by
  obtain ⟨tm', heq, hsched, running, currentLevel, hfields⟩ := H.finishSelf hidle
  simp only [finish, heq]
  have hw' : tm'.finishWaiter = cpu.tm.finishWaiter := by rw [hfields]
  cases hw : cpu.tm.finishWaiter cpu.executing with
  | none =>
    simp only [hw', hw]
    refine ⟨hsched.congr rfl rfl rfl rfl rfl (fun _ => rfl) fun _ => rfl, rfl, ?_, ?_, ?_, ?_,
      ?_⟩
    · simp [restoreContext, hfields]
    · simp [restoreContext, hfields]
    · simp [restoreContext, hfields]
    · simp only [restoreContext]
      rw [← hw, Function.update_eq_self]
    · simp [restoreContext, hfields]
  | some w =>
    obtain ⟨hmem, hne⟩ := hwaiter w hw
    simp only [hw', hw]
    have htasks : tm'.tasks = cpu.tm.tasks := by rw [hfields]
    have htask : tm'.task = cpu.tm.task := by rw [hfields]
    have hsched' : ({ tm' with
        tasks := tm'.tasks.erase cpu.executing
        finishTasks := Function.update tm'.finishTasks cpu.executing (some exitCode)
        finishWaiter := Function.update cpu.tm.finishWaiter cpu.executing none } :
          TaskManager Ctx).Sched tm'.currentTask :=
      hsched.congr rfl rfl rfl rfl rfl (fun _ => rfl) fun _ => rfl
    have hwake := hsched'.wakeup (t := w)
      (show w ∈ tm'.tasks.erase cpu.executing from
        htasks ▸ (List.mem_erase_of_ne hne).mpr hmem)
      (show (-1 : Int) ≤ kMaxLevel by decide)
    simp only [restoreContext, hwake.currentTask_eq]
    refine ⟨hwake, trivial, ?_, ?_, ?_, ?_, fun u => ?_⟩
    · simp [hfields]
    · simp [htasks]
    · simp [hfields]
    · simp
    · simp only [TaskManager.wakeup_running, htask]
      simp [eq_comm]

/-- `WaitFinish` returns if there is an exit code. -/
theorem waitFinishLoop_some (h : cpu.tm.finishTasks w.taskId = some exitCode) :
    cpu.waitFinishLoop w = (some exitCode, { cpu with
      tm := { cpu.tm with finishTasks := Function.update cpu.tm.finishTasks w.taskId none }
      waiting := Function.update cpu.waiting cpu.executing none }) := by
  simp only [waitFinishLoop, h]

/-- Otherwise its caller registers itself and goes to sleep. -/
theorem waitFinishLoop_none (H : cpu.tm.Sched cpu.executing) (hidle : cpu.executing ≠ kIdleTask)
    (hw : w.currentTask = cpu.executing) (h : cpu.tm.finishTasks w.taskId = none) :
    ∃ cpu', cpu.waitFinishLoop w = (none, cpu') ∧ Switched cpu cpu' cpu.regs ∧
      cpu'.waiting = Function.update cpu.waiting cpu.executing (some w) ∧
      cpu'.tm.tasks = cpu.tm.tasks ∧ cpu'.tm.latestId = cpu.tm.latestId ∧
      cpu'.tm.finishTasks = cpu.tm.finishTasks ∧
      cpu'.tm.finishWaiter =
        Function.update cpu.tm.finishWaiter w.taskId (some cpu.executing) ∧
      ∀ u, (cpu'.tm.task u).running =
        if u = cpu.executing then false else (cpu.tm.task u).running := by
  let cpu₁ : Cpu Ctx := { cpu with
    tm := { cpu.tm with
      finishWaiter := Function.update cpu.tm.finishWaiter w.taskId (some w.currentTask) }
    waiting := Function.update cpu.waiting cpu.executing (some w) }
  have H₁ : cpu₁.tm.Sched cpu₁.executing :=
    H.congr rfl rfl rfl rfl rfl (fun _ => rfl) fun _ => rfl
  obtain ⟨hsw, hcalls, hrun⟩ := sleep_executing H₁ hidle
  refine ⟨cpu₁.sleep cpu₁.executing, ?_, ⟨hsw.1, hsw.2, hsw.3, hsw.4, hsw.5⟩, hcalls.waiting,
    hcalls.tasks, hcalls.latestId, hcalls.finishTasks, ?_, hrun⟩
  · simp only [waitFinishLoop, h, hw, cpu₁]
  · rw [hcalls.finishWaiter, ← hw]

/-! ## The invariant holds in every reachable state -/

theorem Inv.init (mainCtx idleCtx regs : Ctx) : Inv (Cpu.init mainCtx idleCtx regs) where
  sched := .init mainCtx idleCtx
  registered := fun _ _ h => absurd h.symm (Option.some_ne_none _)
  loop := fun _ _ h => absurd h.symm (Option.some_ne_none _)
  disjoint := fun _ => .inl rfl

namespace Inv

/-- An operation that neither registers nor collects anything. -/
private theorem of_sched (H : Inv cpu) (hsched : cpu'.tm.Sched cpu'.executing)
    (htasks : ∀ t ∈ cpu.tm.tasks, t ∈ cpu'.tm.tasks)
    (hcodes : cpu'.tm.finishTasks = cpu.tm.finishTasks)
    (hwaiters : cpu'.tm.finishWaiter = cpu.tm.finishWaiter)
    (hwaiting : cpu'.waiting = cpu.waiting) : Inv cpu' where
  sched := hsched
  registered := by
    rw [hwaiters, hwaiting]
    exact H.registered
  loop := by
    rw [hwaiting]
    intro t l h
    obtain ⟨hmem, hrest⟩ := H.loop t l h
    exact ⟨htasks t hmem, hrest⟩
  disjoint := by
    rw [hcodes, hwaiters]
    exact H.disjoint

private theorem of_calls (H : Inv cpu) (hsched : cpu'.tm.Sched cpu'.executing)
    (hcalls : SameCalls cpu cpu') : Inv cpu' :=
  H.of_sched hsched (fun _ ht => hcalls.tasks ▸ ht) hcalls.finishTasks hcalls.finishWaiter
    hcalls.waiting

/-- A registered task is alive and is not the one that it waits for, unless that one waits. -/
theorem waiter_mem (H : Inv cpu) (hnot : cpu.waiting cpu.executing = none)
    (h : cpu.tm.finishWaiter cpu.executing = some w) :
    w ∈ cpu.tm.tasks ∧ w ≠ cpu.executing := by
  obtain ⟨l, hl, -⟩ := H.registered _ _ h
  refine ⟨(H.loop w l hl).1, fun hw => ?_⟩
  rw [hw, hnot] at hl
  cases hl

theorem finish (H : Inv cpu) (hidle : cpu.executing ≠ kIdleTask)
    (hnot : cpu.waiting cpu.executing = none) (exitCode : Int) : Inv (cpu.finish exitCode) := by
  obtain ⟨hsched, hwaiting, -, htasks, hcodes, hwaiters, -⟩ :=
    finish_spec H.sched hidle (fun w => H.waiter_mem hnot) exitCode
  refine ⟨hsched, ?_, ?_, ?_⟩
  · rw [hwaiters, hwaiting]
    intro id w h
    by_cases hid : id = cpu.executing
    · simp [hid] at h
    · exact H.registered id w (by simpa [hid] using h)
  · rw [hwaiting, htasks]
    intro t l h
    obtain ⟨hmem, hrest⟩ := H.loop t l h
    refine ⟨(List.mem_erase_of_ne fun ht => ?_).mpr hmem, hrest⟩
    rw [ht, hnot] at h
    cases h
  · rw [hcodes, hwaiters]
    intro id
    by_cases hid : id = cpu.executing
    · exact .inr (by rw [hid, Function.update_self])
    · simpa [hid] using H.disjoint id

theorem waitFinishLoop (H : Inv cpu) (hidle : cpu.executing ≠ kIdleTask)
    (hw : w.currentTask = cpu.executing)
    (hloop : cpu.waiting cpu.executing = none ∨ cpu.waiting cpu.executing = some w) :
    Inv (cpu.waitFinishLoop w).2 := by
  cases hcode : cpu.tm.finishTasks w.taskId with
  | some exitCode =>
    rw [waitFinishLoop_some hcode]
    refine ⟨H.sched.congr rfl rfl rfl rfl rfl (fun _ => rfl) fun _ => rfl, ?_, ?_, ?_⟩
    · intro id v h
      obtain ⟨l, hl, hid⟩ := H.registered id v h
      refine ⟨l, ?_, hid⟩
      have hne : v ≠ cpu.executing := by
        intro hv
        -- the caller waits for a finished task, so it is registered nowhere
        rw [hv] at hl
        rcases hloop with hnone | hsome
        · cases hnone.symm.trans hl
        · have hlw : w = l := Option.some.inj (hsome.symm.trans hl)
          have hfin := H.disjoint id
          rw [← hid, ← hlw, hcode] at hfin
          rcases hfin with hfin | hfin
          · cases hfin
          · rw [hlw, hid] at hfin
            cases hfin.symm.trans h
      exact (Function.update_of_ne hne ..).trans hl
    · intro t l h
      by_cases ht : t = cpu.executing
      · simp [ht] at h
      · exact H.loop t l (by simpa [ht] using h)
    · intro id
      by_cases hid : id = w.taskId
      · exact .inl (by simp [hid])
      · simpa [hid] using H.disjoint id
  | none =>
    obtain ⟨cpu', heq, hsw, hwaiting, htasks, -, hcodes, hwaiters, -⟩ :=
      waitFinishLoop_none H.sched hidle hw hcode
    rw [heq]
    refine ⟨hsw.sched, ?_, ?_, ?_⟩
    · rw [hwaiters, hwaiting]
      intro id v h
      by_cases hv : v = cpu.executing
      · subst hv
        refine ⟨w, Function.update_self .., ?_⟩
        by_cases hid : id = w.taskId
        · exact hid.symm
        · obtain ⟨l, hl, hlid⟩ := H.registered id _ (by simpa [hid] using h)
          rcases hloop with hnone | hsome
          · cases hnone.symm.trans hl
          · rw [← hlid]
            exact congrArg WaitLoop.taskId (Option.some.inj (hsome.symm.trans hl))
      · rw [Function.update_of_ne hv]
        by_cases hid : id = w.taskId
        · rw [hid, Function.update_self] at h
          exact absurd (Option.some.inj h).symm hv
        · exact H.registered id v (by simpa [hid] using h)
    · rw [hwaiting, htasks]
      intro t l h
      by_cases ht : t = cpu.executing
      · subst ht
        obtain rfl : w = l := by simpa using h
        exact ⟨H.sched.executing_mem, hidle, hw⟩
      · exact H.loop t l (by simpa [ht] using h)
    · rw [hcodes, hwaiters]
      intro id
      by_cases hid : id = w.taskId
      · exact .inl (hid ▸ hcode)
      · simpa [hid] using H.disjoint id

/-- Every event keeps the invariant. -/
theorem step (H : Inv cpu) (h : cpu.step e = some cpu') : Inv cpu' := by
  cases e with
  | run regs =>
    cases h
    exact H.of_calls H.sched ⟨rfl, rfl, rfl, rfl, rfl⟩
  | newTask context =>
    cases h
    exact H.of_sched (H.sched.newTask context) (fun t ht => List.mem_append_left _ ht) rfl rfl rfl
  | wakeup task level =>
    simp only [Cpu.step, Option.ite_none_right_eq_some, Option.some.injEq] at h
    obtain ⟨⟨hmem, -, hle⟩, rfl⟩ := h
    exact H.of_calls (H.sched.wakeup hmem hle) ⟨by simp, by simp, by simp, by simp, rfl⟩
  | sendMessage id msg =>
    cases h
    exact H.of_calls (H.sched.sendMessage id msg) ⟨by simp, by simp, by simp, by simp, rfl⟩
  | sleep task =>
    simp only [Cpu.step, Option.ite_none_right_eq_some, Option.some.injEq] at h
    obtain ⟨⟨hmem, hidle⟩, rfl⟩ := h
    obtain ⟨hsched, hcalls, -⟩ := sleep_spec H.sched hmem hidle
    exact H.of_calls hsched hcalls
  | switchTask =>
    cases h
    obtain ⟨hsw, hcalls, -⟩ := switchTask_spec H.sched cpu.regs
    exact H.of_calls hsw.sched hcalls
  | finish exitCode =>
    simp only [Cpu.step, Option.ite_none_right_eq_some, Option.some.injEq] at h
    obtain ⟨⟨hidle, hnot⟩, rfl⟩ := h
    exact H.finish hidle (by simpa using hnot) exitCode
  | waitFinish taskId =>
    simp only [Cpu.step, Option.ite_none_right_eq_some, Option.some.injEq] at h
    obtain ⟨⟨hidle, hnot⟩, rfl⟩ := h
    exact H.waitFinishLoop hidle H.sched.currentTask_eq (.inl (by simpa using hnot))
  | waitLoop =>
    obtain ⟨w, hw, rfl⟩ := Option.map_eq_some_iff.mp h
    obtain ⟨-, hidle, hself⟩ := H.loop _ w hw
    exact H.waitFinishLoop hidle hself (.inr hw)

theorem reachable {mainCtx idleCtx regs : Ctx}
    (h : system.Reachable (Cpu.init mainCtx idleCtx regs) cpu) : Inv cpu :=
  h.invariant (fun _ _ _ H hs => H.step hs) (.init mainCtx idleCtx regs)

end Inv

end Cpu

end MikanOS
