import MikanOS.Task.Dispatch
import MikanOS.Terminal.PipeDescriptor

/-! # The task at the end of a pipe

A command line with a pipe: the terminal task makes a task for the right-hand command, writes into the
pipe and ends it with `FinishWrite`. `PipeDescriptor` holds a reference to the reading task, and that
task can call `Finish` at any time. -/

namespace MikanOS

variable {Ctx : Type}

/-- `Task::SendMessage` through a reference: the message and the wake-up, with `task` the task that
has got the message. -/
def TaskManager.sendTo (tm : TaskManager Ctx) (id : Nat) (task : Task Ctx) : TaskManager Ctx :=
  (tm.setTask id task).wakeup id (-1)

theorem TaskManager.sendTo_eq_sendMessage {tm : TaskManager Ctx} {id : Nat} (h : id ∈ tm.tasks)
    (msg : Message) : tm.sendTo id ((tm.task id).sendMessage msg) = (tm.sendMessage id msg).2 := by
  rw [sendMessage, if_pos h]
  rfl

namespace Cpu

/-- The event is a call of `Finish`. -/
def Event.isFinish : Event Ctx → Bool
  | .finish _ => true
  | _ => false

variable {cpu cpu' : Cpu Ctx} {e : Event Ctx}

/-- Tasks come by `NewTask` and go by `Finish` only. -/
theorem Inv.step_tasks (H : Inv cpu) (h : cpu.step e = some cpu') :
    cpu.tm.latestId ≤ cpu'.tm.latestId ∧ ∀ t ≤ cpu.tm.latestId,
      (t ∈ cpu'.tm.tasks ↔ t ∈ cpu.tm.tasks ∧ ¬ (e.isFinish = true ∧ t = cpu.executing)) := by
  -- the events that leave the tasks alone
  have hsame (htasks : cpu'.tm.tasks = cpu.tm.tasks) (hid : cpu'.tm.latestId = cpu.tm.latestId)
      (he : e.isFinish = false) : cpu.tm.latestId ≤ cpu'.tm.latestId ∧ ∀ t ≤ cpu.tm.latestId,
      (t ∈ cpu'.tm.tasks ↔ t ∈ cpu.tm.tasks ∧ ¬ (e.isFinish = true ∧ t = cpu.executing)) := by
    simp [htasks, hid, he]
  have hwait (w : WaitLoop) (hidle : cpu.executing ≠ kIdleTask) (hw : w.currentTask = cpu.executing)
      (hcpu : cpu' = (cpu.waitFinishLoop w).2) :
      cpu'.tm.tasks = cpu.tm.tasks ∧ cpu'.tm.latestId = cpu.tm.latestId := by
    cases hcode : cpu.tm.finishTasks w.taskId with
    | some exitCode =>
      rw [hcpu, waitFinishLoop_some hcode]
      exact ⟨rfl, rfl⟩
    | none =>
      obtain ⟨cpu₁, heq, -, -, htasks, hid, -⟩ := waitFinishLoop_none H.sched hidle hw hcode
      rw [hcpu, heq]
      exact ⟨htasks, hid⟩
  cases e with
  | run regs => cases h; exact hsame rfl rfl rfl
  | newTask context =>
    cases h
    refine ⟨Nat.le_succ _, fun t ht => ?_⟩
    simp only [TaskManager.newTask, List.mem_append, List.mem_singleton, Event.isFinish,
      Bool.false_eq_true, false_and, not_false_iff, and_true]
    exact or_iff_left (by omega)
  | wakeup task level =>
    simp only [Cpu.step, Option.ite_none_right_eq_some, Option.some.injEq] at h
    obtain ⟨-, rfl⟩ := h
    exact hsame (by simp) (by simp) rfl
  | sendMessage id msg => cases h; exact hsame (by simp) (by simp) rfl
  | sleep task =>
    simp only [Cpu.step, Option.ite_none_right_eq_some, Option.some.injEq] at h
    obtain ⟨⟨hmem, hidle⟩, rfl⟩ := h
    obtain ⟨-, hcalls, -⟩ := sleep_spec H.sched hmem hidle
    exact hsame hcalls.tasks hcalls.latestId rfl
  | switchTask =>
    cases h
    obtain ⟨-, hcalls, -⟩ := switchTask_spec H.sched cpu.regs
    exact hsame hcalls.tasks hcalls.latestId rfl
  | finish exitCode =>
    simp only [Cpu.step, Option.ite_none_right_eq_some, Option.some.injEq] at h
    obtain ⟨⟨hidle, hnot⟩, rfl⟩ := h
    obtain ⟨-, -, hid, htasks, -⟩ := finish_spec H.sched hidle
      (fun w => H.waiter_mem (by simpa using hnot)) exitCode
    refine ⟨hid.ge, fun t _ => ?_⟩
    rw [htasks, H.sched.tasks_nodup.mem_erase_iff, and_comm]
    simp [Event.isFinish]
  | waitFinish taskId =>
    simp only [Cpu.step, Option.ite_none_right_eq_some, Option.some.injEq] at h
    obtain ⟨⟨hidle, -⟩, rfl⟩ := h
    obtain ⟨htasks, hid⟩ := hwait ⟨taskId, cpu.tm.currentTask⟩ hidle H.sched.currentTask_eq rfl
    exact hsame htasks hid rfl
  | waitLoop =>
    obtain ⟨w, hw, rfl⟩ := Option.map_eq_some_iff.mp h
    obtain ⟨-, hidle, hself⟩ := H.loop _ w hw
    obtain ⟨htasks, hid⟩ := hwait w hidle hself rfl
    exact hsame htasks hid rfl

end Cpu

/-- A command line with a pipe, from the point where its two tasks run. `sends` tells for each message
of the pipe whether its receiver was in `tasks_`; `early` that the reader has called `Finish` before
`FinishWrite`. -/
structure Pipeline (Ctx : Type) where
  cpu : Cpu Ctx
  writer : Option PipeDescriptor.WriteLoop
  finished : Bool
  sends : List Bool
  early : Bool

namespace Pipeline

inductive Event (Ctx : Type) where
  | cpu (e : Cpu.Event Ctx)
  | write (buf : Nat → UInt8) (len : Nat)
  | writeLoop
  | finishWrite

/-- The task of the terminal executes, and is not inside `WaitFinish`. -/
def Writing (left : Nat) (s : Pipeline Ctx) : Prop :=
  s.cpu.executing = left ∧ s.cpu.waiting left = none ∧ s.finished = false

instance (left : Nat) (s : Pipeline Ctx) : Decidable (Writing left s) :=
  inferInstanceAs (Decidable (_ ∧ _ ∧ _))

/-- A message of the pipe reaches the reader, as `task`. -/
def send (reader : Nat) (s : Pipeline Ctx) (task : Task Ctx) : Pipeline Ctx :=
  { s with
    cpu := { s.cpu with tm := s.cpu.tm.sendTo reader task }
    sends := s.sends ++ [decide (reader ∈ s.cpu.tm.tasks)] }

/-- One event, of the pipe or of any task. -/
def step (left reader : Nat) (s : Pipeline Ctx) : Event Ctx → Option (Pipeline Ctx)
  | .cpu e => (s.cpu.step e).map fun cpu => { s with
      cpu
      early := s.early || (e.isFinish && s.cpu.executing == reader && !s.finished) }
  | .write buf len =>
    if s.Writing left ∧ s.writer.isNone then
      some { s with writer := some (PipeDescriptor.write buf len) }
    else none
  | .writeLoop =>
    if s.Writing left then
      s.writer.map fun w =>
        match PipeDescriptor.writeLoop (s.cpu.tm.task reader) w with
        | some (w, task) => { s.send reader task with writer := some w }
        | none => { s with writer := none }
    else none
  | .finishWrite =>
    if s.Writing left ∧ s.writer.isNone then
      some { s.send reader (PipeDescriptor.finishWrite (s.cpu.tm.task reader)) with
        finished := true }
    else none

def system (Ctx : Type) (left reader : Nat) : Transition.System (Pipeline Ctx) (Event Ctx) :=
  ⟨step left reader⟩

/-- `ExecuteLine` has made and woken the task of the right-hand command, with the context that
`InitContext` gave it. -/
def start (cpu : Cpu Ctx) (context : Ctx) : Pipeline Ctx where
  cpu := { cpu with tm := (cpu.tm.newTask context).wakeup (cpu.tm.latestId + 1) (-1) }
  writer := none
  finished := false
  sends := []
  early := false

/-! ## While the messages reach a live task -/

/-- No message has gone to a dead task yet: the scheduler is in order, and the reader is alive unless
it has finished, early or after the end of the stream. -/
structure Good (reader : Nat) (s : Pipeline Ctx) : Prop where
  cpu : s.cpu.Inv
  id_le : reader ≤ s.cpu.tm.latestId
  sends : ∀ b ∈ s.sends, b = true
  alive : s.early = false → s.finished = false → reader ∈ s.cpu.tm.tasks
  dead : s.early = true → reader ∉ s.cpu.tm.tasks ∧ s.finished = false

/-- Either all is in order, or a message has gone to the dead reader, which finished early. -/
def Inv (reader : Nat) (s : Pipeline Ctx) : Prop :=
  Good reader s ∨ false ∈ s.sends ∧ s.early = true

variable {left reader : Nat} {s s' : Pipeline Ctx} {cpu : Cpu Ctx}

theorem Good.start (H : cpu.Inv) (context : Ctx) :
    Good (cpu.tm.latestId + 1) (Pipeline.start cpu context) := by
  have hmem : cpu.tm.latestId + 1 ∈ (cpu.tm.newTask context).tasks := by
    simp [TaskManager.newTask]
  have hnew : cpu.step (.newTask context) = some { cpu with tm := cpu.tm.newTask context } := rfl
  have hwake : ({ cpu with tm := cpu.tm.newTask context } : Cpu Ctx).step
      (.wakeup (cpu.tm.latestId + 1) (-1)) = some (Pipeline.start cpu context).cpu :=
    if_pos ⟨hmem, by decide, by decide⟩
  refine ⟨(H.step hnew).step hwake, ?_, fun b h => absurd h List.not_mem_nil, fun _ _ => ?_,
    fun h => absurd h Bool.false_ne_true⟩
  · simp [Pipeline.start, TaskManager.newTask]
  · simpa [Pipeline.start] using hmem

/-- An event of the tasks: only a `Finish` of the reader itself takes it away. -/
theorem Good.cpuStep (H : Good reader s) {e : Cpu.Event Ctx} (h : s.cpu.step e = some cpu) :
    Good reader { s with
      cpu
      early := s.early || (e.isFinish && s.cpu.executing == reader && !s.finished) } := by
  obtain ⟨hid, htasks⟩ := H.cpu.step_tasks h
  have hreader := htasks reader H.id_le
  refine ⟨H.cpu.step h, H.id_le.trans hid, H.sends, fun hearly hfin => ?_, fun hearly => ?_⟩
  · simp only [Bool.or_eq_false_iff] at hearly
    refine hreader.mpr ⟨H.alive hearly.1 hfin, ?_⟩
    rintro ⟨he, hself⟩
    simp [he, hself, show s.finished = false from hfin] at hearly
  · rcases Bool.or_eq_true_iff.mp hearly with hearly | hnow
    · obtain ⟨hdead, hfin⟩ := H.dead hearly
      exact ⟨fun hmem => hdead (hreader.mp hmem).1, hfin⟩
    · simp only [Bool.and_eq_true, beq_iff_eq, Bool.not_eq_true'] at hnow
      obtain ⟨⟨he, hself⟩, hfin⟩ := hnow
      exact ⟨fun hmem => (hreader.mp hmem).2 ⟨he, hself.symm⟩, hfin⟩

/-- A message of the pipe before the end of the stream. -/
theorem Good.send (H : Good reader s) (hfin : s.finished = false) (msg : Message) :
    (s.early = false ∧
      Good reader (s.send reader ((s.cpu.tm.task reader).sendMessage msg))) ∨
    s.early = true ∧
      false ∈ (s.send reader ((s.cpu.tm.task reader).sendMessage msg)).sends := by
  cases hearly : s.early with
  | true =>
    refine .inr ⟨rfl, List.mem_append_right _ ?_⟩
    simp [(H.dead hearly).1]
  | false =>
    have hmem := H.alive hearly hfin
    have hcpu : s.cpu.step (.sendMessage reader msg) =
        some { s.cpu with tm := s.cpu.tm.sendTo reader ((s.cpu.tm.task reader).sendMessage msg) } := by
      rw [TaskManager.sendTo_eq_sendMessage hmem]
      rfl
    have Hcpu := H.cpuStep hcpu
    refine .inl ⟨rfl, Hcpu.cpu, Hcpu.id_le, fun b hb => ?_, fun he hf => ?_, fun he => ?_⟩
    · rcases List.mem_append.mp hb with hb | hb
      · exact H.sends b hb
      · rw [List.mem_singleton.mp hb, decide_eq_true hmem]
    · exact Hcpu.alive (by simp [hearly, Cpu.Event.isFinish]) hf
    · exact absurd (hearly.symm.trans he) Bool.false_ne_true

theorem Inv.step {e : Event Ctx} (H : Inv reader s)
    (h : s.step left reader e = some s') : Inv reader s' := by
  rcases H with H | ⟨hsent, hearly⟩
  · cases e with
    | cpu e =>
      obtain ⟨cpu, hcpu, rfl⟩ := Option.map_eq_some_iff.mp h
      exact .inl (H.cpuStep hcpu)
    | write buf len =>
      simp only [Pipeline.step, Option.ite_none_right_eq_some, Option.some.injEq] at h
      obtain ⟨-, rfl⟩ := h
      exact .inl ⟨H.cpu, H.id_le, H.sends, H.alive, H.dead⟩
    | writeLoop =>
      simp only [Pipeline.step, Option.ite_none_right_eq_some, Option.map_eq_some_iff] at h
      obtain ⟨hw, w, -, rfl⟩ := h
      rw [PipeDescriptor.writeLoop]
      split
      · rename_i w' task heq
        split at heq
        · cases heq
          obtain ⟨hearly, H'⟩ | ⟨hearly, hsent⟩ := H.send hw.2.2 _
          · exact .inl ⟨H'.cpu, H'.id_le, H'.sends, H'.alive, H'.dead⟩
          · exact .inr ⟨hsent, hearly⟩
        · cases heq
      · exact .inl ⟨H.cpu, H.id_le, H.sends, H.alive, H.dead⟩
    | finishWrite =>
      simp only [Pipeline.step, Option.ite_none_right_eq_some, Option.some.injEq] at h
      obtain ⟨⟨hw, -⟩, rfl⟩ := h
      obtain ⟨hearly, H'⟩ | ⟨hearly, hsent⟩ := H.send hw.2.2 (.kPipe (fun _ => 0) 0)
      · refine .inl ⟨H'.cpu, H'.id_le, H'.sends, fun _ hf => ?_, fun he => ?_⟩
        · cases hf
        · exact absurd (hearly.symm.trans he) Bool.false_ne_true
      · exact .inr ⟨hsent, hearly⟩
  · -- what has been sent stays sent
    refine .inr ?_
    cases e with
    | cpu e =>
      obtain ⟨cpu, hcpu, rfl⟩ := Option.map_eq_some_iff.mp h
      exact ⟨hsent, by simp [hearly]⟩
    | write buf len =>
      simp only [Pipeline.step, Option.ite_none_right_eq_some, Option.some.injEq] at h
      obtain ⟨-, rfl⟩ := h
      exact ⟨hsent, hearly⟩
    | writeLoop =>
      simp only [Pipeline.step, Option.ite_none_right_eq_some, Option.map_eq_some_iff] at h
      obtain ⟨-, w, -, rfl⟩ := h
      split
      · exact ⟨List.mem_append_left _ hsent, hearly⟩
      · exact ⟨hsent, hearly⟩
    | finishWrite =>
      simp only [Pipeline.step, Option.ite_none_right_eq_some, Option.some.injEq] at h
      obtain ⟨-, rfl⟩ := h
      exact ⟨List.mem_append_left _ hsent, hearly⟩

/-- As long as the reader does not finish before the end of the stream, every message goes to a live
task and the run queues hold live tasks only; and once the stream has ended, all messages have gone to
a live task just when the reader did not. -/
theorem sends_to_live_iff {mainCtx idleCtx regs context : Ctx} {es : List (Event Ctx)}
    (hcpu : Cpu.system.Reachable (Cpu.init mainCtx idleCtx regs) cpu)
    (h : (system Ctx left (cpu.tm.latestId + 1)).Run (start cpu context) es s) :
    (s.early = false → (∀ b ∈ s.sends, b = true) ∧
      ∀ l, ∀ t ∈ s.cpu.tm.running l, t ∈ s.cpu.tm.tasks) ∧
    (s.finished = true → ((∀ b ∈ s.sends, b = true) ↔ s.early = false)) := by
  have H : Inv (cpu.tm.latestId + 1) s :=
    h.invariant (I := Inv (cpu.tm.latestId + 1)) (fun _ _ _ H hs => H.step hs)
      (.inl (.start (.reachable hcpu) context))
  rcases H with H | ⟨hsent, hearly⟩
  · refine ⟨fun _ => ⟨H.sends, H.cpu.queuesHoldRunnable.owned⟩, fun hfin => ?_⟩
    refine iff_of_true H.sends ?_
    cases hearly : s.early with
    | false => rfl
    | true => exact absurd ((H.dead hearly).2.symm.trans hfin) Bool.false_ne_true
  · refine ⟨fun h => absurd (h.symm.trans hearly) Bool.false_ne_true, fun _ => ?_⟩
    refine iff_of_false (fun hall => Bool.false_ne_true (hall false hsent)) fun h => ?_
    exact Bool.false_ne_true (h.symm.trans hearly)

/-- A terminal, as task 3, executes. -/
def terminal : Cpu Nat :=
  (Cpu.system.exec (.init 0 0 0) [.newTask 5, .wakeup 3 (-1), .sleep 1]).get rfl

theorem terminal_reachable : Cpu.system.Reachable (Cpu.init 0 0 0) terminal :=
  Transition.System.reachable_of_exec (Option.some_get _).symm

/-- The reader finishes after the end of the stream. -/
def readToEnd : List (Event Nat) := [
  .write (fun _ => 0x61) 5, .writeLoop, .writeLoop, .finishWrite, .cpu .switchTask, .cpu (.finish 0)]

theorem sends_to_live_iff_readToEnd :
    ∃ s, (system Nat 3 4).exec (start terminal 6) readToEnd = some s ∧ s.sends = [true, true] ∧
      ((∀ b ∈ s.sends, b = true) ↔ s.early = false) := by
  have h : ((system Nat 3 4).exec (start terminal 6) readToEnd).map
      (fun s => (s.sends, s.finished)) = some ([true, true], true) := by decide +kernel
  obtain ⟨s, hs, hval⟩ := Option.map_eq_some_iff.mp h
  obtain ⟨hsends, hfin⟩ := Prod.mk.inj hval
  have hrun := Transition.System.run_of_exec hs
  exact ⟨s, hs, hsends, (sends_to_live_iff terminal_reachable hrun).2 hfin⟩

/-- The right-hand command does not read its input: its task is gone when the left-hand one ends the
stream. -/
theorem not_sends_to_live_unread :
    ∃ s, (system Nat 3 4).Run (start terminal 6)
        [.cpu .switchTask, .cpu (.finish 0), .finishWrite] s ∧
      4 ∉ s.cpu.tm.tasks ∧ s.sends = [false] ∧ ¬ ∀ b ∈ s.sends, b = true := by
  have h : ((system Nat 3 4).exec (start terminal 6)
      [.cpu .switchTask, .cpu (.finish 0), .finishWrite]).map
        (fun s => (s.cpu.tm.tasks, s.sends)) = some ([1, 2, 3], [false]) := by decide +kernel
  obtain ⟨s, hs, hval⟩ := Option.map_eq_some_iff.mp h
  obtain ⟨htasks, hsends⟩ := Prod.mk.inj hval
  refine ⟨s, Transition.System.run_of_exec hs, by simp [htasks], hsends, fun hall => ?_⟩
  exact Bool.false_ne_true (hall false (by simp [hsends]))

end Pipeline

end MikanOS
