import MikanOS.Task.System

/-! # Loops that wait for messages

The main task, the terminals, `ReadEvent` and the `Read` of terminals and pipes wait for messages in one way: `cli`,
`ReceiveMessage`, and `Sleep` if there is no message. Interrupts, and with them other tasks, come in where they are
enabled only. -/

namespace MikanOS

variable {Ctx : Type}

/-! ## Messages and contexts that an operation leaves alone -/

namespace TaskManager

variable (tm : TaskManager Ctx) (t u : Nat)

@[simp] theorem msgs_setRunning (running : Bool) : ((tm.setRunning t running).task u).msgs = (tm.task u).msgs := by
  by_cases h : u = t <;> simp [setRunning, setTask, h]

@[simp] theorem msgs_setLevel (level : Nat) : ((tm.setLevel t level).task u).msgs = (tm.task u).msgs := by
  by_cases h : u = t <;> simp [setLevel, setTask, h]

@[simp] theorem msgs_setContext (context : Ctx) : ((tm.setContext t context).task u).msgs = (tm.task u).msgs := by
  by_cases h : u = t <;> simp [setContext, setTask, h]

@[simp] theorem task_setQueue (level : Nat) (queue : List Nat) : (tm.setQueue level queue).task = tm.task := rfl

@[simp] theorem task_rotate (sleep : Bool) : (tm.rotateCurrentRunQueue sleep).2.task = tm.task := by
  simp only [rotateCurrentRunQueue, chooseLevel, pushBack, popFront]
  split <;> split <;> split <;> rfl

theorem msgs_wakeup (level : Int) : ((tm.wakeup t level).task u).msgs = (tm.task u).msgs := by
  simp only [wakeup, changeLevelRunning]
  split
  · split
    · rfl
    · split <;> split <;> exact msgs_setLevel ..
  · generalize (if level < 0 then (tm.task t).level else level.toNat) = l
    have hwake : (((tm.setLevel t l).setRunning t true).task u).msgs = (tm.task u).msgs := by simp
    split <;> exact hwake

theorem context_sendMessage (msg : Message) :
    (((tm.sendMessage t msg).2).task u).context = (tm.task u).context := by
  simp only [sendMessage]
  split
  · rw [(wakeup_frame ..).2.2.2.2.1]
    by_cases h : u = t <;> simp [setTask, h]
  · rfl

theorem msgs_sendMessage (msg : Message) : (((tm.sendMessage t msg).2).task u).msgs =
    if u = t ∧ t ∈ tm.tasks then (tm.task u).msgs ++ [msg] else (tm.task u).msgs := by
  simp only [sendMessage]
  split
  · rename_i hmem
    rw [msgs_wakeup]
    by_cases h : u = t <;> simp [setTask, h, hmem]
  · rename_i hmem
    rw [if_neg fun h => hmem h.2]

theorem task_init (mainCtx idleCtx : Ctx) : ((init mainCtx idleCtx).task t).msgs = [] ∧
    ((init mainCtx idleCtx).task t).context = if t = kIdleTask then idleCtx else mainCtx := by
  simp only [init, newTask, setLevel, setRunning, pushBack, setQueue, setTask, Function.update_apply]
  constructor
  · repeat' split
    all_goals rfl
  · by_cases h : t = kIdleTask
    · rw [h]
      rfl
    · have h2 : t ≠ 0 + 1 + 1 := h
      rw [if_neg h]
      simp only [if_neg h2]
      repeat' split
      all_goals rfl

theorem task_newTask (context : Ctx) (h : u ≠ tm.latestId + 1) : (tm.newTask context).task u = tm.task u :=
  Function.update_of_ne h ..

end TaskManager

namespace Cpu

variable {cpu : Cpu Ctx} {t u : Nat}

theorem msgs_switchTask (ctx : Ctx) : ((cpu.switchTask ctx).tm.task u).msgs = (cpu.tm.task u).msgs := by
  simp only [switchTask, restoreContext]
  split <;> simp

/-- A task that is its own successor goes on with the registers it has. -/
theorem regs_switchTask (H : cpu.tm.Sched cpu.executing) (ctx : Ctx)
    (h : (cpu.switchTask ctx).executing = cpu.executing) : (cpu.switchTask ctx).regs = cpu.regs := by
  have hfront := (H.setContext cpu.executing ctx).front_eq
  simp only [switchTask, restoreContext, H.currentTask_eq] at h ⊢
  split
  · rename_i hne
    rw [if_pos hne] at h
    refine absurd (h.trans ?_) hne
    simp only [TaskManager.rotateCurrentRunQueue]
    exact hfront.symm
  · rfl

theorem msgs_sleep : ((cpu.sleep t).tm.task u).msgs = (cpu.tm.task u).msgs := by
  simp only [sleep, switchContext, restoreContext]
  split
  · rfl
  · split <;> simp

theorem msgs_waitFinishLoop (w : WaitLoop) : ((cpu.waitFinishLoop w).2.tm.task u).msgs = (cpu.tm.task u).msgs := by
  simp only [waitFinishLoop]
  split
  · rfl
  · exact msgs_sleep

/-- `Finish` dispatches another task with the registers that it has saved. -/
theorem task_finish (cpu : Cpu Ctx) (u : Nat) (exitCode : Int) : (cpu.finish exitCode).regs =
      ((cpu.finish exitCode).tm.task (cpu.finish exitCode).executing).context ∧
    ((cpu.finish exitCode).tm.task u).msgs = (cpu.tm.task u).msgs ∧
    ((cpu.finish exitCode).tm.task u).context = (cpu.tm.task u).context := by
  refine ⟨rfl, ?_, ?_⟩
  all_goals
    simp only [finish, restoreContext]
    split
  · rw [TaskManager.msgs_wakeup]
    simp
  · simp
  · rw [(TaskManager.wakeup_frame ..).2.2.2.2.1]
    simp
  · simp

/-- The registers of a task: in the CPU while it executes, and in its context otherwise. -/
def registersOf (cpu : Cpu Ctx) (t : Nat) : Ctx :=
  if t = cpu.executing then cpu.regs else (cpu.tm.task t).context

theorem registersOf_executing : cpu.registersOf cpu.executing = cpu.regs := if_pos rfl

theorem registersOf_of_ne (h : t ≠ cpu.executing) : cpu.registersOf t = (cpu.tm.task t).context := if_neg h

theorem registersOf_setRegs (h : t ≠ cpu.executing) (regs : Ctx) :
    ({ cpu with regs } : Cpu Ctx).registersOf t = cpu.registersOf t :=
  (if_neg h).trans (if_neg h).symm

variable {cpu' : Cpu Ctx} {saved : Ctx}

/-- A dispatch changes the registers of no task but the one that was executing. -/
theorem Switched.registersOf (h : Switched cpu cpu' saved)
    (hself : cpu'.executing = cpu.executing → cpu'.regs = saved)
    (t : Nat) : cpu'.registersOf t = if t = cpu.executing then saved else cpu.registersOf t := by
  by_cases ht : t = cpu'.executing
  · rw [ht, registersOf_executing]
    split
    · rename_i hsame
      exact hself hsame
    · rename_i hne
      rw [h.loads hne, registersOf_of_ne hne]
  · rw [registersOf_of_ne ht]
    split
    · rename_i hold
      rw [hold, h.saves]
    · rename_i hne
      rw [h.frame t hne, registersOf_of_ne hne]

end Cpu

/-! ## The loops -/

/-- Where a task is, as its registers say: before `cli`, with interrupts enabled; behind it; behind a
`ReceiveMessage` that gave nothing; in `Sleep`. -/
inductive LoopPoint where
  | handling
  | receiving
  | sleeping
  | slept
  deriving DecidableEq

/-- The tasks, with what `SendMessage` has put into the queue of each and what each has received. -/
structure MessageLoops where
  cpu : Cpu LoopPoint
  sent : Nat → List Message
  received : Nat → List Message

namespace MessageLoops

/-- The tasks' calls and the interrupts, and the steps of the loop. -/
inductive Event where
  | call (e : Cpu.Event LoopPoint)
  | waitLoop
  | cli
  | receive
  | sleep
  | leave
  | resume (sti : Bool)

variable (s : MessageLoops)

/-- Interrupts are enabled. `WaitFinish` is called between `cli` and `sti`. -/
def Interruptible : Prop := s.cpu.regs = .handling ∧ s.cpu.waiting s.cpu.executing = none

instance : Decidable s.Interruptible := inferInstanceAs (Decidable (_ ∧ _))

/-- The calls of tasks and interrupt handlers. No task puts another one to sleep, and a new one starts with
interrupts enabled. -/
def IsCall : Cpu.Event LoopPoint → Bool
  | .run _ | .sleep _ | .waitLoop => false
  | .newTask context => context = .handling
  | _ => true

def noteSent (e : Cpu.Event LoopPoint) : Nat → List Message :=
  match e with
  | .sendMessage id msg => if id ∈ s.cpu.tm.tasks then Function.update s.sent id (s.sent id ++ [msg]) else s.sent
  | _ => s.sent

def step : Event → Option MessageLoops
  | .call e =>
    if s.Interruptible ∧ IsCall e then (s.cpu.step e).map fun cpu => { s with cpu, sent := s.noteSent e }
    else none
  | .waitLoop => (s.cpu.step .waitLoop).map fun cpu => { s with cpu }
  | .cli =>
    if s.Interruptible ∧ s.cpu.executing ≠ kIdleTask then some { s with cpu.regs := .receiving } else none
  | .receive =>
    if s.cpu.regs = .receiving then
      match (s.cpu.tm.task s.cpu.executing).receiveMessage with
      | (none, _) => some { s with cpu.regs := .sleeping }
      | (some m, task) => some {
          cpu := { s.cpu with tm := s.cpu.tm.setTask s.cpu.executing task, regs := .handling }
          sent := s.sent
          received := Function.update s.received s.cpu.executing (s.received s.cpu.executing ++ [m]) }
    else none
  | .sleep =>
    if s.cpu.regs = .sleeping then
      some { s with cpu := { s.cpu with regs := .slept }.sleep s.cpu.executing }
    else none
  -- `ReadEvent` returns the events that it has instead of waiting for more
  | .leave => if s.cpu.regs = .sleeping then some { s with cpu.regs := .handling } else none
  -- the main task enables interrupts behind `Sleep`, the others go straight on to `cli`
  | .resume sti =>
    if s.cpu.regs = .slept then some { s with cpu.regs := if sti then .handling else .receiving } else none

def system : Transition.System MessageLoops Event := ⟨step⟩

/-- The boot code goes on as the main task. -/
def init : MessageLoops := ⟨.init .handling .handling .handling, fun _ => [], fun _ => []⟩

/-- No task but the idle one can run. -/
def Idling (s : MessageLoops) : Prop := ∀ t, s.cpu.tm.runnable t ≠ none → t = kIdleTask

/-- What is sent is received or waits in the queue. A task with messages in its queue can run unless it is inside
`WaitFinish`: interrupts are off between the look into the empty queue and `Sleep`. -/
structure Inv (s : MessageLoops) : Prop where
  cpu : s.cpu.Inv
  idle : s.cpu.registersOf kIdleTask = .handling
  parked : ∀ t ∈ s.cpu.tm.tasks, t ≠ s.cpu.executing →
    s.cpu.registersOf t = .handling ∨ s.cpu.registersOf t = .slept
  held : ∀ t w, s.cpu.waiting t = some w → s.cpu.registersOf t = .handling
  empty : s.cpu.regs = .sleeping → (s.cpu.tm.task s.cpu.executing).msgs = []
  awake : ∀ t ∈ s.cpu.tm.tasks, (s.cpu.tm.task t).running = true ∨ (s.cpu.tm.task t).msgs = [] ∨
    (s.cpu.waiting t).isSome
  fifo : ∀ t, s.sent t = s.received t ++ (s.cpu.tm.task t).msgs
  fresh : ∀ t, s.cpu.tm.latestId < t → s.sent t = []

namespace Inv

variable {s s' : MessageLoops} {cpu' : Cpu LoopPoint} {p : LoopPoint}

theorem init : Inv init where
  cpu := .init ..
  idle := rfl
  parked := fun t _ ht => .inl (by
    rw [Cpu.registersOf_of_ne ht]
    exact (TaskManager.task_init ..).2.trans (ite_self _))
  held := fun _ _ h => nomatch h
  empty := fun h => nomatch h
  awake := fun t _ => .inr (.inl (TaskManager.task_init ..).1)
  fifo := fun t => (TaskManager.task_init ..).1.symm
  fresh := fun _ _ => rfl

/-- The executing task goes to another point of its loop. -/
theorem setRegs (H : Inv s) (hidle : s.cpu.executing ≠ kIdleTask) (hwait : s.cpu.waiting s.cpu.executing = none)
    (hempty : p = .sleeping → (s.cpu.tm.task s.cpu.executing).msgs = []) : Inv { s with cpu.regs := p } where
  cpu := ⟨H.cpu.sched, H.cpu.registered, H.cpu.loop, H.cpu.disjoint⟩
  idle := (Cpu.registersOf_setRegs hidle.symm p).trans H.idle
  parked := by
    intro t ht hne
    have hne : t ≠ s.cpu.executing := hne
    have hframe := Cpu.registersOf_setRegs hne p
    exact (H.parked t ht hne).imp hframe.trans hframe.trans
  held := by
    intro t w hw
    have hne : t ≠ s.cpu.executing := fun h => by
      rw [h] at hw
      cases hwait.symm.trans hw
    exact (Cpu.registersOf_setRegs hne p).trans (H.held t w hw)
  empty := hempty
  awake := H.awake
  fifo := H.fifo
  fresh := H.fresh

/-- Another task is dispatched, or the same one goes on. -/
theorem of_switched (H : Inv s) (hcpu : cpu'.Inv) (hsw : Cpu.Switched s.cpu cpu' p)
    (hself : cpu'.executing = s.cpu.executing → cpu'.regs = p) (hp : p = .handling ∨ p = .slept)
    (hidle : s.cpu.executing = kIdleTask → p = .handling) (htasks : cpu'.tm.tasks = s.cpu.tm.tasks)
    (hlatest : cpu'.tm.latestId = s.cpu.tm.latestId)
    (hmsgs : ∀ t, (cpu'.tm.task t).msgs = (s.cpu.tm.task t).msgs)
    (hheld : ∀ t w, cpu'.waiting t = some w → (t = s.cpu.executing ∧ p = .handling) ∨
      t ≠ s.cpu.executing ∧ s.cpu.waiting t = some w)
    (hawake : ∀ t ∈ s.cpu.tm.tasks, (cpu'.tm.task t).running = true ∨ (s.cpu.tm.task t).msgs = [] ∨
      (cpu'.waiting t).isSome) : Inv { s with cpu := cpu' } := by
  have hpoint := hsw.registersOf hself
  have hparked : ∀ t ∈ s.cpu.tm.tasks, cpu'.registersOf t = .handling ∨ cpu'.registersOf t = .slept := by
    intro t ht
    rw [hpoint]
    split
    · exact hp
    · rename_i hne
      exact H.parked t ht hne
  refine ⟨hcpu, ?_, fun t ht _ => hparked t (htasks ▸ ht), fun t w hw => ?_, fun hregs => ?_, fun t ht => ?_,
    fun t => ?_, fun t ht => H.fresh t (hlatest ▸ ht)⟩
  · show cpu'.registersOf kIdleTask = .handling
    rw [hpoint]
    split
    · rename_i hexec
      exact hidle hexec.symm
    · exact H.idle
  · show cpu'.registersOf t = .handling
    rw [hpoint]
    rcases hheld t w hw with ⟨hexec, hp⟩ | ⟨hne, hw⟩
    · rw [if_pos hexec, hp]
    · rw [if_neg hne, H.held t w hw]
  · have hregs : cpu'.regs = .sleeping := hregs
    have hexec := hparked cpu'.executing (htasks ▸ hcpu.sched.executing_mem)
    rw [Cpu.registersOf_executing, hregs] at hexec
    rcases hexec with h | h <;> cases h
  · show _ ∨ (cpu'.tm.task t).msgs = [] ∨ _
    rw [hmsgs]
    exact hawake t (htasks ▸ ht)
  · show _ = _ ++ (cpu'.tm.task t).msgs
    rw [hmsgs]
    exact H.fifo t

/-- A call after which the same task goes on in the same place. -/
theorem of_quiet {sent : Nat → List Message} (H : Inv s) (hint : s.Interruptible) (hcpu : cpu'.Inv)
    (hexec : cpu'.executing = s.cpu.executing) (hregs : cpu'.regs = s.cpu.regs)
    (hwaiting : cpu'.waiting = s.cpu.waiting)
    (hpoint : ∀ t ∈ cpu'.tm.tasks, cpu'.registersOf t = .handling ∨ cpu'.registersOf t = s.cpu.registersOf t ∧
      t ∈ s.cpu.tm.tasks)
    (hawake : ∀ t ∈ cpu'.tm.tasks, (cpu'.tm.task t).running = true ∨ (cpu'.tm.task t).msgs = [] ∨
      (s.cpu.waiting t).isSome)
    (hfifo : ∀ t, sent t = s.received t ++ (cpu'.tm.task t).msgs)
    (hfresh : ∀ t, cpu'.tm.latestId < t → sent t = []) :
    Inv { s with cpu := cpu', sent } where
  cpu := hcpu
  idle := (hpoint _ hcpu.sched.idle_mem).elim id fun h => h.1.trans H.idle
  parked := by
    intro t ht hne
    rcases hpoint t ht with h | ⟨h, hmem⟩
    · exact .inl h
    · exact (H.parked t hmem fun heq => hne (heq.trans hexec.symm)).imp h.trans h.trans
  held := by
    intro t w hw
    rcases hpoint t (hcpu.loop t w hw).1 with h | ⟨h, hmem⟩
    · exact h
    · exact h.trans (H.held t w (hwaiting ▸ hw))
  empty := fun h => nomatch (hint.1.symm.trans hregs.symm).trans h
  awake := fun t ht => hwaiting ▸ hawake t ht
  fifo := hfifo
  fresh := hfresh

theorem executing_ne_new (H : Inv s) : s.cpu.executing ≠ s.cpu.tm.latestId + 1 :=
  Nat.ne_of_lt (Nat.lt_succ_of_le (H.cpu.sched.id_le _ H.cpu.sched.executing_mem))

/-- A new task has got no messages so far. -/
theorem newTask (H : Inv s) (hint : s.Interruptible) :
    Inv { s with cpu := { s.cpu with tm := s.cpu.tm.newTask .handling } } := by
  have hnew : ∀ t ∈ (s.cpu.tm.newTask LoopPoint.handling).tasks, t ∈ s.cpu.tm.tasks ∧ t ≠ s.cpu.tm.latestId + 1 ∨
      t = s.cpu.tm.latestId + 1 := by
    intro t ht
    rcases List.mem_append.mp ht with h | h
    · exact .inl ⟨h, fun heq => absurd (H.cpu.sched.id_le t h) (by omega)⟩
    · exact .inr (List.mem_singleton.mp h)
  have hself : (s.cpu.tm.newTask LoopPoint.handling).task (s.cpu.tm.latestId + 1) = { context := .handling } :=
    Function.update_self ..
  refine H.of_quiet hint (H.cpu.step (e := .newTask .handling) rfl) rfl rfl rfl (fun t ht => ?_) (fun t ht => ?_)
    (fun t => ?_) fun t ht => H.fresh t (Nat.lt_of_succ_lt ht)
  · rcases hnew t ht with ⟨hmem, hne⟩ | rfl
    · refine .inr ⟨?_, hmem⟩
      simp only [Cpu.registersOf, TaskManager.task_newTask _ _ _ hne]
    · exact .inl ((if_neg H.executing_ne_new.symm).trans (congrArg Task.context hself))
  · rcases hnew t ht with ⟨hmem, hne⟩ | rfl
    · simpa only [TaskManager.task_newTask _ _ _ hne] using H.awake t hmem
    · exact .inr (.inl (congrArg Task.msgs hself))
  · by_cases h : t = s.cpu.tm.latestId + 1
    · subst h
      have hsent := H.fresh _ (Nat.lt_succ_self _)
      have hreceived := List.append_eq_nil_iff.mp ((H.fifo _).symm.trans hsent)
      rw [hsent, hreceived.1]
      exact (congrArg Task.msgs hself).symm
    · rw [TaskManager.task_newTask _ _ _ h]
      exact H.fifo t

theorem wakeup (H : Inv s) (hint : s.Interruptible) {t : Nat} {level : Int}
    (hcpu : Cpu.Inv { s.cpu with tm := s.cpu.tm.wakeup t level }) :
    Inv { s with cpu := { s.cpu with tm := s.cpu.tm.wakeup t level } } := by
  obtain ⟨htasks, hlatest, -, -, hcontext, hrun⟩ := s.cpu.tm.wakeup_frame t level
  refine H.of_quiet hint hcpu rfl rfl rfl (fun u hu => .inr ⟨?_, htasks ▸ hu⟩) (fun u hu => ?_) (fun u => ?_)
    fun u hu => H.fresh u (hlatest ▸ hu)
  · simp only [Cpu.registersOf, hcontext]
  · simp only [hrun, TaskManager.msgs_wakeup]
    refine (H.awake u (htasks ▸ hu)).imp_left fun h => ?_
    rw [h, Bool.or_true]
  · rw [TaskManager.msgs_wakeup]
    exact H.fifo u

/-- A message wakes the task that it is sent to. -/
theorem sendMessage (H : Inv s) (hint : s.Interruptible) (id : Nat) (msg : Message) :
    Inv { s with cpu := { s.cpu with tm := (s.cpu.tm.sendMessage id msg).2 },
                 sent := s.noteSent (.sendMessage id msg) } := by
  have hcpu : Cpu.Inv { s.cpu with tm := (s.cpu.tm.sendMessage id msg).2 } :=
    H.cpu.step (e := .sendMessage id msg) rfl
  refine H.of_quiet hint hcpu rfl rfl rfl (fun u hu => .inr ⟨?_, ?_⟩) (fun u hu => ?_) (fun u => ?_) fun u hu => ?_
  · simp only [Cpu.registersOf, TaskManager.context_sendMessage]
  · simpa using hu
  · simp only [TaskManager.sendMessage_tasks] at hu
    by_cases hid : u = id
    · subst hid
      refine .inl ?_
      simp only [TaskManager.sendMessage, if_pos hu, TaskManager.wakeup_running]
      simp
    · rw [TaskManager.msgs_sendMessage, if_neg fun h => hid h.1]
      exact (H.awake u hu).imp_left (TaskManager.sendMessage_running _ _ _ _)
  · simp only [noteSent, TaskManager.msgs_sendMessage]
    by_cases hid : u = id
    · subst hid
      split
      · rename_i hmem
        simp [hmem, H.fifo u]
      · rename_i hmem
        simp [hmem, H.fifo u]
    · simp only [hid, false_and, if_false]
      rw [← H.fifo u]
      split
      · exact Function.update_of_ne hid ..
      · rfl
  · simp only [TaskManager.sendMessage_latestId] at hu
    simp only [noteSent]
    split
    · rename_i hmem
      have hne : u ≠ id := fun h => absurd (H.cpu.sched.id_le id hmem) (by omega)
      rw [Function.update_of_ne hne]
      exact H.fresh u hu
    · exact H.fresh u hu

theorem switchTask (H : Inv s) (hint : s.Interruptible) : Inv { s with cpu := s.cpu.switchTask s.cpu.regs } := by
  obtain ⟨hsw, hcalls, hrun⟩ := Cpu.switchTask_spec H.cpu.sched s.cpu.regs
  rw [hint.1] at hsw hcalls hrun ⊢
  refine H.of_switched (H.cpu.step (e := .switchTask) (by simp [Cpu.step, hint.1])) hsw (fun hself => ?_) (.inl rfl)
    (fun _ => rfl) hcalls.tasks hcalls.latestId (fun _ => Cpu.msgs_switchTask _) (fun t w hw => ?_) (fun t ht => ?_)
  · exact (Cpu.regs_switchTask H.cpu.sched _ hself).trans hint.1
  · rw [hcalls.waiting] at hw
    refine .inr ⟨fun h => ?_, hw⟩
    rw [h, hint.2] at hw
    cases hw
  · rw [hrun, hcalls.waiting]
    exact H.awake t ht

/-- `Finish` takes the task out of the task list; what it has not received is never received. -/
theorem finish (H : Inv s) (hint : s.Interruptible) (hidle : s.cpu.executing ≠ kIdleTask) (exitCode : Int) :
    Inv { s with cpu := s.cpu.finish exitCode } := by
  have hcpu := H.cpu.finish hidle hint.2 exitCode
  obtain ⟨-, hwaiting, hlatest, htasks, -, -, hrun⟩ :=
    Cpu.finish_spec H.cpu.sched hidle (fun w => H.cpu.waiter_mem hint.2) exitCode
  have hmem : ∀ {t}, t ∈ (s.cpu.finish exitCode).tm.tasks → t ∈ s.cpu.tm.tasks ∧ t ≠ s.cpu.executing := by
    intro t ht
    rw [htasks] at ht
    exact (H.cpu.sched.tasks_nodup.mem_erase_iff.mp ht).symm
  -- the task that goes on has just been loaded
  have hpoint : ∀ t, t ≠ s.cpu.executing → (s.cpu.finish exitCode).registersOf t = s.cpu.registersOf t := by
    intro t ht
    rw [Cpu.registersOf_of_ne ht]
    obtain ⟨hregs, -, hcontext⟩ := s.cpu.task_finish t exitCode
    simp only [Cpu.registersOf]
    split
    · rename_i heq
      rw [hregs, ← heq, hcontext]
    · exact hcontext
  have hnotSleeping : (s.cpu.finish exitCode).regs = .handling ∨ (s.cpu.finish exitCode).regs = .slept := by
    obtain ⟨hexec, hne⟩ := hmem hcpu.sched.executing_mem
    rw [← Cpu.registersOf_executing, hpoint _ hne]
    exact H.parked _ hexec hne
  refine ⟨hcpu, ?_, fun t ht _ => ?_, fun t w hw => ?_, fun hregs => ?_, fun t ht => ?_, fun t => ?_,
    fun t ht => H.fresh t (hlatest ▸ ht)⟩
  · exact (hpoint _ hidle.symm).trans H.idle
  · obtain ⟨hold, hne⟩ := hmem ht
    exact (H.parked t hold hne).imp (hpoint t hne).trans (hpoint t hne).trans
  · have hw : s.cpu.waiting t = some w := hwaiting ▸ hw
    have hne : t ≠ s.cpu.executing := fun h => by
      rw [h, hint.2] at hw
      cases hw
    exact (hpoint t hne).trans (H.held t w hw)
  · have hregs : (s.cpu.finish exitCode).regs = .sleeping := hregs
    rw [hregs] at hnotSleeping
    rcases hnotSleeping with h | h <;> cases h
  · obtain ⟨hold, -⟩ := hmem ht
    simp only [hrun, hwaiting, (s.cpu.task_finish t exitCode).2.1]
    refine (H.awake t hold).imp_left fun h => ?_
    rw [h, Bool.or_true]
  · simp only [(s.cpu.task_finish t exitCode).2.1]
    exact H.fifo t

/-- A turn of the loop of `WaitFinish`. -/
theorem waitFinishLoop (H : Inv s) (hregs : s.cpu.regs = .handling) (hidle : s.cpu.executing ≠ kIdleTask)
    {w : WaitLoop} (hw : w.currentTask = s.cpu.executing) (hcpu : (s.cpu.waitFinishLoop w).2.Inv) :
    Inv { s with cpu := (s.cpu.waitFinishLoop w).2 } := by
  cases hcode : s.cpu.tm.finishTasks w.taskId with
  | some exitCode =>
    rw [Cpu.waitFinishLoop_some hcode] at hcpu ⊢
    refine ⟨hcpu, H.idle, H.parked, fun t l hl => ?_, H.empty, fun t ht => ?_, H.fifo, H.fresh⟩
    · by_cases ht : t = s.cpu.executing
      · simp [ht] at hl
      · exact H.held t l (by simpa [ht] using hl)
    · by_cases hexec : t = s.cpu.executing
      · exact .inl (hexec ▸ H.cpu.sched.executing_running)
      · exact (H.awake t ht).imp_right (.imp_right fun h => by simpa [hexec] using h)
  | none =>
    have hmsgs : ∀ t, ((s.cpu.waitFinishLoop w).2.tm.task t).msgs = (s.cpu.tm.task t).msgs := fun _ =>
      Cpu.msgs_waitFinishLoop w
    obtain ⟨cpu', heq, hsw, hwaiting, htasks, hlatest, -, -, hrun⟩ :=
      Cpu.waitFinishLoop_none H.cpu.sched hidle hw hcode
    rw [heq] at hcpu hmsgs ⊢
    rw [hregs] at hsw
    refine H.of_switched hcpu hsw (fun hself => ?_) (.inl rfl) (fun h => absurd h hidle) htasks hlatest hmsgs
      (fun t l hl => ?_) fun t ht => ?_
    · have hrunning := hcpu.sched.executing_running
      rw [hrun, if_pos hself] at hrunning
      cases hrunning
    · rw [hwaiting] at hl
      by_cases hexec : t = s.cpu.executing
      · exact .inl ⟨hexec, rfl⟩
      · exact .inr ⟨hexec, by simpa [hexec] using hl⟩
    · rw [hrun, hwaiting]
      by_cases hexec : t = s.cpu.executing
      · simp [hexec]
      · simpa [hexec] using H.awake t ht

/-- The executing task is inside its loop, behind `cli`: it is not the idle task and not inside `WaitFinish`. -/
theorem inLoop (H : Inv s) (h : s.cpu.regs ≠ .handling) :
    s.cpu.executing ≠ kIdleTask ∧ s.cpu.waiting s.cpu.executing = none := by
  constructor
  · intro hidle
    have hpoint := H.idle
    rw [← hidle, Cpu.registersOf_executing] at hpoint
    exact h hpoint
  · by_contra hwait
    obtain ⟨w, hw⟩ := Option.ne_none_iff_exists'.mp hwait
    exact h (Cpu.registersOf_executing.symm.trans (H.held _ w hw))

theorem receive (H : Inv s) (hregs : s.cpu.regs = .receiving) {m : Message} {msgs : List Message}
    (hmsgs : (s.cpu.tm.task s.cpu.executing).msgs = m :: msgs) : Inv {
      cpu := { s.cpu with
        tm := s.cpu.tm.setTask s.cpu.executing { s.cpu.tm.task s.cpu.executing with msgs }, regs := .handling }
      sent := s.sent
      received := Function.update s.received s.cpu.executing (s.received s.cpu.executing ++ [m]) } := by
  obtain ⟨hidle, hwait⟩ := H.inLoop (by simp [hregs])
  have H' : Inv { s with cpu.regs := .handling } := H.setRegs hidle hwait fun h => by cases h
  have htask : ∀ t, t ≠ s.cpu.executing →
      (s.cpu.tm.setTask s.cpu.executing { s.cpu.tm.task s.cpu.executing with msgs }).task t = s.cpu.tm.task t :=
    fun t ht => Function.update_of_ne ht ..
  have hself : (s.cpu.tm.setTask s.cpu.executing { s.cpu.tm.task s.cpu.executing with msgs }).task s.cpu.executing =
      { s.cpu.tm.task s.cpu.executing with msgs } := Function.update_self ..
  have hpoint : ∀ t, ({ s.cpu with
      tm := s.cpu.tm.setTask s.cpu.executing { s.cpu.tm.task s.cpu.executing with msgs }
      regs := .handling } : Cpu LoopPoint).registersOf t =
        ({ s.cpu with regs := .handling } : Cpu LoopPoint).registersOf t := by
    intro t
    simp only [Cpu.registersOf]
    split
    · rfl
    · rename_i ht
      rw [htask t ht]
  refine ⟨⟨H.cpu.sched.setMsgs _ msgs, H.cpu.registered, H.cpu.loop, H.cpu.disjoint⟩, (hpoint _).trans H'.idle,
    fun t ht hne => (H'.parked t ht hne).imp (hpoint t).trans (hpoint t).trans,
    fun t w hw => (hpoint t).trans (H'.held t w hw), (fun h => nomatch h), fun t ht => ?_, fun t => ?_, H.fresh⟩
  · by_cases hexec : t = s.cpu.executing
    · subst hexec
      refine .inl ?_
      rw [hself]
      exact H.cpu.sched.executing_running
    · rw [htask t hexec]
      exact H.awake t ht
  · by_cases hexec : t = s.cpu.executing
    · subst hexec
      simp only [hself, Function.update_self, H.fifo, hmsgs, List.append_assoc]
      rfl
    · simp only [htask t hexec, Function.update_of_ne hexec]
      exact H.fifo t

/-- A task goes to sleep behind a look into its empty queue. -/
theorem sleep (H : Inv s) (hregs : s.cpu.regs = .sleeping) :
    Inv { s with cpu := { s.cpu with regs := .slept }.sleep s.cpu.executing } := by
  obtain ⟨hidle, hwait⟩ := H.inLoop (by simp [hregs])
  have H' : Inv { s with cpu.regs := .slept } := H.setRegs hidle hwait fun h => by cases h
  obtain ⟨hsw, hcalls, hrun⟩ := Cpu.sleep_executing H'.cpu.sched hidle
  have hcpu := H'.cpu.step (e := .sleep s.cpu.executing) (if_pos ⟨H.cpu.sched.executing_mem, hidle⟩)
  refine H'.of_switched hcpu hsw (fun hself => ?_) (.inr rfl) (fun h => absurd h hidle) hcalls.tasks hcalls.latestId
    (fun _ => Cpu.msgs_sleep) (fun t w hw => ?_) fun t ht => ?_
  · have hrunning := hcpu.sched.executing_running
    rw [hrun, if_pos hself] at hrunning
    cases hrunning
  · rw [hcalls.waiting] at hw
    refine .inr ⟨fun h => ?_, hw⟩
    rw [h, hwait] at hw
    cases hw
  · rw [hrun, hcalls.waiting]
    by_cases hexec : t = s.cpu.executing
    · exact .inr (.inl (hexec ▸ H.empty hregs))
    · simpa [hexec] using H.awake t ht

/-- Every call keeps the invariant. -/
theorem call {e : Cpu.Event LoopPoint} (H : Inv s) (hint : s.Interruptible) (he : IsCall e = true)
    (h : s.cpu.step e = some cpu') : Inv { s with cpu := cpu', sent := s.noteSent e } := by
  have hcpu := H.cpu.step h
  cases e with
  | run | sleep | waitLoop => cases he
  | newTask context =>
    cases h
    obtain rfl : context = .handling := by simpa [IsCall] using he
    exact H.newTask hint
  | wakeup task level =>
    obtain ⟨-, h⟩ := Option.ite_none_right_eq_some.mp h
    cases h
    exact H.wakeup hint hcpu
  | sendMessage id msg =>
    cases h
    exact H.sendMessage hint id msg
  | switchTask =>
    cases h
    exact H.switchTask hint
  | finish exitCode =>
    obtain ⟨⟨hidle, -⟩, h⟩ := Option.ite_none_right_eq_some.mp h
    cases h
    exact H.finish hint hidle exitCode
  | waitFinish taskId =>
    obtain ⟨⟨hidle, -⟩, h⟩ := Option.ite_none_right_eq_some.mp h
    cases h
    exact H.waitFinishLoop hint.1 hidle H.cpu.sched.currentTask_eq hcpu

theorem step (H : Inv s) (h : s.step e = some s') : Inv s' := by
  cases e with
  | call e =>
    obtain ⟨⟨hint, he⟩, h⟩ := Option.ite_none_right_eq_some.mp h
    obtain ⟨cpu', hcpu, rfl⟩ := Option.map_eq_some_iff.mp h
    exact H.call hint he hcpu
  | waitLoop =>
    obtain ⟨cpu', hcpu, rfl⟩ := Option.map_eq_some_iff.mp h
    have hcpu' := H.cpu.step hcpu
    obtain ⟨w, hw, rfl⟩ := Option.map_eq_some_iff.mp hcpu
    obtain ⟨-, hidle, hself⟩ := H.cpu.loop _ w hw
    exact H.waitFinishLoop (Cpu.registersOf_executing.symm.trans (H.held _ w hw)) hidle hself hcpu'
  | cli =>
    obtain ⟨⟨hint, hidle⟩, h⟩ := Option.ite_none_right_eq_some.mp h
    cases h
    exact H.setRegs hidle hint.2 fun h => by cases h
  | receive =>
    obtain ⟨hregs, h⟩ := Option.ite_none_right_eq_some.mp h
    obtain ⟨hidle, hwait⟩ := H.inLoop (by simp [hregs])
    cases hmsgs : (s.cpu.tm.task s.cpu.executing).msgs with
    | nil =>
      simp only [Task.receiveMessage, hmsgs] at h
      cases h
      exact H.setRegs hidle hwait fun _ => hmsgs
    | cons m msgs =>
      simp only [Task.receiveMessage, hmsgs] at h
      cases h
      exact H.receive hregs hmsgs
  | sleep =>
    obtain ⟨hregs, h⟩ := Option.ite_none_right_eq_some.mp h
    cases h
    exact H.sleep hregs
  | leave =>
    obtain ⟨hregs, h⟩ := Option.ite_none_right_eq_some.mp h
    obtain ⟨hidle, hwait⟩ := H.inLoop (by simp [hregs])
    cases h
    exact H.setRegs hidle hwait fun h => by cases h
  | resume sti =>
    obtain ⟨hregs, h⟩ := Option.ite_none_right_eq_some.mp h
    obtain ⟨hidle, hwait⟩ := H.inLoop (by simp [hregs])
    cases h
    exact H.setRegs hidle hwait fun h => by cases sti <;> cases h

theorem reachable (h : system.Reachable MessageLoops.init s) : Inv s :=
  h.invariant (fun _ _ _ H hs => H.step hs) .init

end Inv

end MessageLoops

end MikanOS
