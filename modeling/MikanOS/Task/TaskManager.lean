import MikanOS.Error
import MikanOS.Task.Message

/-! # The task manager

`task.hpp`, `task.cpp`: the run queues with their priority levels, sleeping and waking, and the
hand-over of exit codes. A `Task*` is the ID of its task. `Ctx` is the type of register contexts,
which the scheduler only copies. -/

namespace MikanOS

/-- The part of a `Task` that the scheduler and the message functions read and write. -/
structure Task (Ctx : Type) where
  context : Ctx
  msgs : List Message := []
  /-- `kDefaultLevel` is 1. -/
  level : Nat := 1
  running : Bool := false

namespace Task

variable {Ctx : Type}

/-- `Task::ReceiveMessage`. -/
def receiveMessage (task : Task Ctx) : Option Message × Task Ctx :=
  match task.msgs with
  | [] => (none, task)
  | m :: msgs => (some m, { task with msgs })

end Task

/-- `TaskManager::kMaxLevel`. -/
def kMaxLevel : Nat := 3

/-- The state of `TaskManager`. `tasks` are the tasks it owns, in the order of `tasks_`; `task`
dereferences a task pointer. -/
structure TaskManager (Ctx : Type) where
  tasks : List Nat
  task : Nat → Task Ctx
  latestId : Nat
  running : Nat → List Nat
  currentLevel : Nat
  levelChanged : Bool
  finishTasks : Nat → Option Int
  finishWaiter : Nat → Option Nat

/-- The ID of the idle task, the second task that the constructor makes. -/
def kIdleTask : Nat := 2

namespace TaskManager

variable {Ctx : Type} (tm : TaskManager Ctx)

/-- `Erase`: remove every occurrence of a value. -/
def erase (c : List Nat) (value : Nat) : List Nat := c.filter (· ≠ value)

/-- `front()` of a queue that is not empty. -/
def front (c : List Nat) : Nat := c.headD 0

def setTask (id : Nat) (t : Task Ctx) : TaskManager Ctx :=
  { tm with task := Function.update tm.task id t }

def setLevel (id : Nat) (level : Nat) : TaskManager Ctx :=
  tm.setTask id { tm.task id with level }

def setRunning (id : Nat) (running : Bool) : TaskManager Ctx :=
  tm.setTask id { tm.task id with running }

def setContext (id : Nat) (context : Ctx) : TaskManager Ctx :=
  tm.setTask id { tm.task id with context }

def setQueue (level : Nat) (queue : List Nat) : TaskManager Ctx :=
  { tm with running := Function.update tm.running level queue }

def pushBack (level id : Nat) : TaskManager Ctx := tm.setQueue level (tm.running level ++ [id])

def pushFront (level id : Nat) : TaskManager Ctx := tm.setQueue level (id :: tm.running level)

def popFront (level : Nat) : TaskManager Ctx := tm.setQueue level (tm.running level).tail

/-- `NewTask`, with the context that `InitContext` gives the task. -/
def newTask (context : Ctx) : TaskManager Ctx :=
  let id := tm.latestId + 1
  { tm.setTask id { context } with latestId := id, tasks := tm.tasks ++ [id] }

/-- `TaskManager::TaskManager`: the running main task and the idle task. -/
def init (mainCtx idleCtx : Ctx) : TaskManager Ctx :=
  let tm : TaskManager Ctx := {
    tasks := [], task := fun _ => { context := mainCtx }, latestId := 0, running := fun _ => [],
    currentLevel := kMaxLevel, levelChanged := false, finishTasks := fun _ => none,
    finishWaiter := fun _ => none }
  let tm := tm.newTask mainCtx
  let main := tm.latestId
  let tm := ((tm.setLevel main tm.currentLevel).setRunning main true).pushBack tm.currentLevel main
  let tm := tm.newTask idleCtx
  let idle := tm.latestId
  ((tm.setLevel idle 0).setRunning idle true).pushBack 0 idle

def currentTask : Nat := front (tm.running tm.currentLevel)

/-- The loop of `RotateCurrentRunQueue` that looks for the highest level with a task. -/
def searchLevel : Nat → Nat
  | 0 => if tm.running 0 ≠ [] then 0 else tm.currentLevel
  | lv + 1 => if tm.running (lv + 1) ≠ [] then lv + 1 else searchLevel lv

/-- The end of `RotateCurrentRunQueue`: a changed level is looked up. -/
def chooseLevel : TaskManager Ctx :=
  if tm.levelChanged then
    { tm with levelChanged := false, currentLevel := tm.searchLevel kMaxLevel }
  else tm

def rotateCurrentRunQueue (currentSleep : Bool) : Nat × TaskManager Ctx :=
  let currentTask := front (tm.running tm.currentLevel)
  let tm := tm.popFront tm.currentLevel
  let tm := if currentSleep then tm else tm.pushBack tm.currentLevel currentTask
  let tm := if tm.running tm.currentLevel = [] then { tm with levelChanged := true } else tm
  (currentTask, tm.chooseLevel)

def changeLevelRunning (task : Nat) (level : Int) : TaskManager Ctx :=
  if level < 0 ∨ level = (tm.task task).level then tm
  else
    let level := level.toNat
    if task ≠ front (tm.running tm.currentLevel) then
      -- change level of other task
      let old := (tm.task task).level
      let tm := tm.setQueue old (erase (tm.running old) task)
      let tm := (tm.pushBack level task).setLevel task level
      if tm.currentLevel < level then { tm with levelChanged := true } else tm
    else
      -- change level myself
      let tm := tm.popFront tm.currentLevel
      let tm := (tm.pushFront level task).setLevel task level
      if tm.currentLevel ≤ level then { tm with currentLevel := level }
      else { tm with currentLevel := level, levelChanged := true }

def wakeup (task : Nat) (level : Int) : TaskManager Ctx :=
  if (tm.task task).running then tm.changeLevelRunning task level
  else
    let level := if level < 0 then (tm.task task).level else level.toNat
    let tm := (tm.setLevel task level).setRunning task true
    let tm := tm.pushBack level task
    if tm.currentLevel < level then { tm with levelChanged := true } else tm

/-- `SendMessage(id, msg)` with `Task::SendMessage`. -/
def sendMessage (id : Nat) (msg : Message) : Error × TaskManager Ctx :=
  if id ∈ tm.tasks then
    let t := tm.task id
    (.kSuccess, (tm.setTask id { t with msgs := t.msgs ++ [msg] }).wakeup id (-1))
  else (.kNoSuchTask, tm)

end TaskManager

/-- The local variables of a `WaitFinish` call whose loop has not ended. -/
structure WaitLoop where
  taskId : Nat
  currentTask : Nat

/-- The task manager with the CPU that runs its tasks. `executing` is the task whose context was
loaded last, and `waiting` tells which tasks are inside `WaitFinish`. -/
structure Cpu (Ctx : Type) where
  tm : TaskManager Ctx
  regs : Ctx
  executing : Nat
  waiting : Nat → Option WaitLoop

namespace Cpu

variable {Ctx : Type} (cpu : Cpu Ctx)

/-- The boot code runs as the main task. -/
def init (mainCtx idleCtx regs : Ctx) : Cpu Ctx where
  tm := .init mainCtx idleCtx
  regs := regs
  executing := 1
  waiting := fun _ => none

/-- `RestoreContext(&task->Context())`. -/
def restoreContext (task : Nat) : Cpu Ctx :=
  { cpu with regs := (cpu.tm.task task).context, executing := task }

/-- `SwitchContext(&next->Context(), &current->Context())`. -/
def switchContext (next current : Nat) : Cpu Ctx :=
  { cpu with tm := cpu.tm.setContext current cpu.regs }.restoreContext next

/-- `SwitchTask(current_ctx)`, called from the timer interrupt with the interrupted registers. -/
def switchTask (currentCtx : Ctx) : Cpu Ctx :=
  let tm := cpu.tm.setContext cpu.tm.currentTask currentCtx
  let (currentTask, tm) := tm.rotateCurrentRunQueue false
  let cpu := { cpu with tm }
  if tm.currentTask ≠ currentTask then cpu.restoreContext tm.currentTask else cpu

def sleep (task : Nat) : Cpu Ctx :=
  if (cpu.tm.task task).running = false then cpu
  else
    let tm := cpu.tm.setRunning task false
    if task = TaskManager.front (tm.running tm.currentLevel) then
      let (currentTask, tm) := tm.rotateCurrentRunQueue true
      { cpu with tm }.switchContext tm.currentTask currentTask
    else
      let level := (tm.task task).level
      { cpu with tm := tm.setQueue level (TaskManager.erase (tm.running level) task) }

def finish (exitCode : Int) : Cpu Ctx :=
  let (currentTask, tm) := cpu.tm.rotateCurrentRunQueue true
  let tm := { tm with
    tasks := tm.tasks.erase currentTask
    finishTasks := Function.update tm.finishTasks currentTask (some exitCode) }
  let tm :=
    match tm.finishWaiter currentTask with
    | some waiter =>
      { tm with
        finishWaiter := Function.update tm.finishWaiter currentTask none }.wakeup waiter (-1)
    | none => tm
  { cpu with tm }.restoreContext tm.currentTask

/-- One turn of the loop of `WaitFinish`: the exit code if the call returns, and otherwise the
state in which the caller has gone to sleep. -/
def waitFinishLoop (w : WaitLoop) : Option Int × Cpu Ctx :=
  match cpu.tm.finishTasks w.taskId with
  | some exitCode =>
    let tm := { cpu.tm with finishTasks := Function.update cpu.tm.finishTasks w.taskId none }
    (some exitCode, { cpu with tm, waiting := Function.update cpu.waiting cpu.executing none })
  | none =>
    let tm := { cpu.tm with
      finishWaiter := Function.update cpu.tm.finishWaiter w.taskId (some w.currentTask) }
    let waiting := Function.update cpu.waiting cpu.executing (some w)
    (none, { cpu with tm, waiting }.sleep w.currentTask)

/-- The call of `WaitFinish(task_id)` up to the end of the first turn of its loop. -/
def waitFinish (taskId : Nat) : Option Int × Cpu Ctx :=
  cpu.waitFinishLoop ⟨taskId, cpu.tm.currentTask⟩

end Cpu

end MikanOS
