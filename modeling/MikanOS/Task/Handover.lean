import MikanOS.Task.System

/-! # The hand-over of exit codes

Every task has at most one task that waits for it (`waiterOf`), and a task inside `WaitFinish` is
put to sleep by its own loop only. Otherwise the events are those of `Cpu.system`, so that any
messages and wake-ups may reach the waiter at any time. -/

namespace MikanOS

open TaskManager

variable {Ctx : Type} {waiterOf : Nat → Nat} {mainCtx idleCtx regs : Ctx}

/-- The CPU with the history of the hand-over: the code that each task passed to `Finish`, and the
tasks for which a call of `WaitFinish` has returned. -/
structure Handover (Ctx : Type) where
  cpu : Cpu Ctx
  codes : Nat → Option Int
  collected : Nat → Bool

namespace Handover

def init (mainCtx idleCtx regs : Ctx) : Handover Ctx :=
  ⟨.init mainCtx idleCtx regs, fun _ => none, fun _ => false⟩

/-- One turn of the loop of a `WaitFinish` call, with the history of what it returns. -/
def waitFinishLoop (s : Handover Ctx) (w : WaitLoop) : Handover Ctx :=
  match s.cpu.waitFinishLoop w with
  | (some _, cpu) => { s with cpu, collected := Function.update s.collected w.taskId true }
  | (none, cpu) => { s with cpu }

def step (waiterOf : Nat → Nat) (s : Handover Ctx) : Cpu.Event Ctx → Option (Handover Ctx)
  | .sleep task =>
    if (s.cpu.waiting task).isNone then
      (s.cpu.step (.sleep task)).map fun cpu => { s with cpu }
    else none
  | .finish exitCode => (s.cpu.step (.finish exitCode)).map fun cpu =>
      { s with cpu, codes := Function.update s.codes s.cpu.executing (some exitCode) }
  | .waitFinish taskId =>
    if s.cpu.executing = waiterOf taskId ∧ s.cpu.executing ≠ kIdleTask ∧
        (s.cpu.waiting s.cpu.executing).isNone then
      some (s.waitFinishLoop ⟨taskId, s.cpu.tm.currentTask⟩)
    else none
  | .waitLoop => (s.cpu.waiting s.cpu.executing).map s.waitFinishLoop
  | e => (s.cpu.step e).map fun cpu => { s with cpu }

def system (Ctx : Type) (waiterOf : Nat → Nat) :
    Transition.System (Handover Ctx) (Cpu.Event Ctx) := ⟨step waiterOf⟩

variable {s s' : Handover Ctx}

/-- Each event of the hand-over is the event of the CPU. -/
theorem cpu_step (h : step waiterOf s e = some s') : s.cpu.step e = some s'.cpu := by
  have hloop : ∀ w, (s.waitFinishLoop w).cpu = (s.cpu.waitFinishLoop w).2 := by
    intro w
    simp only [waitFinishLoop]
    split <;> rename_i hw <;> rw [hw]
  cases e with
  | sleep task =>
    obtain ⟨-, h⟩ := Option.ite_none_right_eq_some.mp h
    obtain ⟨cpu, hcpu, rfl⟩ := Option.map_eq_some_iff.mp h
    exact hcpu
  | waitFinish taskId =>
    obtain ⟨⟨-, hcall⟩, h⟩ := Option.ite_none_right_eq_some.mp h
    cases h
    rw [hloop]
    exact if_pos hcall
  | waitLoop =>
    obtain ⟨w, hw, rfl⟩ := Option.map_eq_some_iff.mp h
    rw [hloop]
    exact Option.map_eq_some_iff.mpr ⟨w, hw, rfl⟩
  | run | newTask | wakeup | sendMessage | switchTask | finish =>
    simp only [step, Option.map_eq_some_iff] at h
    obtain ⟨cpu, hcpu, rfl⟩ := h
    exact hcpu

/-- The invariant of the hand-over. From the moment that a waiter has registered itself until the
task finishes the registration stands, so that `Finish` finds whom to wake. -/
structure Inv (waiterOf : Nat → Nat) (s : Handover Ctx) : Prop where
  cpu : s.cpu.Inv
  single : ∀ w l, s.cpu.waiting w = some l → w = waiterOf l.taskId
  registered : ∀ w l, s.cpu.waiting w = some l → s.cpu.tm.finishTasks l.taskId = none →
    s.cpu.tm.finishWaiter l.taskId = some w
  awake : ∀ w l, s.cpu.waiting w = some l → s.cpu.tm.finishTasks l.taskId ≠ none →
    (s.cpu.tm.task w).running = true
  code : ∀ id c, s.cpu.tm.finishTasks id = some c → s.codes id = some c
  kept : ∀ id c, s.codes id = some c → s.collected id = false →
    s.cpu.tm.finishTasks id = some c
  alive : ∀ t ∈ s.cpu.tm.tasks, s.codes t = none
  old : ∀ t, s.codes t ≠ none → t ≤ s.cpu.tm.latestId

theorem Inv.init : Inv waiterOf (Handover.init mainCtx idleCtx regs) where
  cpu := .init mainCtx idleCtx regs
  single := fun _ _ h => absurd h.symm (Option.some_ne_none _)
  registered := fun _ _ h => absurd h.symm (Option.some_ne_none _)
  awake := fun _ _ h => absurd h.symm (Option.some_ne_none _)
  code := fun _ _ h => absurd h.symm (Option.some_ne_none _)
  kept := fun _ _ h => absurd h.symm (Option.some_ne_none _)
  alive := fun _ _ => rfl
  old := fun _ h => absurd rfl h

namespace Inv

/-- The events that neither finish a task nor belong to a `WaitFinish` call. -/
private theorem of_calls (H : Inv waiterOf s) {cpu' : Cpu Ctx} (hinv : cpu'.Inv)
    (hcodes : cpu'.tm.finishTasks = s.cpu.tm.finishTasks)
    (hwaiters : cpu'.tm.finishWaiter = s.cpu.tm.finishWaiter)
    (hwaiting : cpu'.waiting = s.cpu.waiting)
    (htasks : ∀ t ∈ cpu'.tm.tasks, t ∈ s.cpu.tm.tasks ∨ s.cpu.tm.latestId < t)
    (hid : s.cpu.tm.latestId ≤ cpu'.tm.latestId)
    (hawake : ∀ w l, s.cpu.waiting w = some l → (s.cpu.tm.task w).running = true →
      (cpu'.tm.task w).running = true) : Inv waiterOf { s with cpu := cpu' } where
  cpu := hinv
  single := by
    show ∀ w l, cpu'.waiting w = some l → _
    rw [hwaiting]
    exact H.single
  registered := by
    show ∀ w l, cpu'.waiting w = some l → cpu'.tm.finishTasks _ = none →
      cpu'.tm.finishWaiter _ = some w
    rw [hwaiting, hcodes, hwaiters]
    exact H.registered
  awake := by
    show ∀ w l, cpu'.waiting w = some l → cpu'.tm.finishTasks _ ≠ none → _
    rw [hwaiting, hcodes]
    exact fun w l h hcode => hawake w l h (H.awake w l h hcode)
  code := by
    show ∀ id c, cpu'.tm.finishTasks id = some c → _
    rw [hcodes]
    exact H.code
  kept := by
    show ∀ id c, _ → _ → cpu'.tm.finishTasks id = some c
    rw [hcodes]
    exact H.kept
  alive := by
    intro t ht
    rcases htasks t ht with hmem | hlt
    · exact H.alive t hmem
    · by_contra hne
      exact Nat.not_lt.mpr (H.old t hne) hlt
  old := fun t ht => Nat.le_trans (H.old t ht) hid

theorem finish (H : Inv waiterOf s) (hidle : s.cpu.executing ≠ kIdleTask)
    (hnot : s.cpu.waiting s.cpu.executing = none) (exitCode : Int) :
    Inv waiterOf { s with
      cpu := s.cpu.finish exitCode
      codes := Function.update s.codes s.cpu.executing (some exitCode) } := by
  obtain ⟨-, hwaiting, hid, htasks, hcodes, hwaiters, hrun⟩ :=
    Cpu.finish_spec H.cpu.sched hidle (fun w => H.cpu.waiter_mem hnot) exitCode
  have hnone : s.cpu.tm.finishTasks s.cpu.executing = none := by
    -- the executing task is alive, so it has not finished yet
    cases h : s.cpu.tm.finishTasks s.cpu.executing with
    | none => rfl
    | some c =>
      have hcode := H.code _ c h
      rw [H.alive _ H.cpu.sched.executing_mem] at hcode
      cases hcode
  refine ⟨H.cpu.finish hidle hnot exitCode, ?_, ?_, ?_, ?_, ?_, ?_, ?_⟩
  · show ∀ w l, (s.cpu.finish exitCode).waiting w = some l → _
    rw [hwaiting]
    exact H.single
  · show ∀ w l, (s.cpu.finish exitCode).waiting w = some l → _ → _
    rw [hwaiting, hcodes, hwaiters]
    intro w l h hcode
    by_cases hl : l.taskId = s.cpu.executing
    · simp [hl] at hcode
    · rw [Function.update_of_ne hl] at hcode ⊢
      exact H.registered w l h hcode
  · show ∀ w l, (s.cpu.finish exitCode).waiting w = some l → _ → _
    rw [hwaiting, hcodes]
    intro w l h hcode
    rw [hrun w]
    by_cases hl : l.taskId = s.cpu.executing
    · have hreg := H.registered w l h (hl ▸ hnone)
      rw [hl] at hreg
      simp [hreg]
    · rw [Function.update_of_ne hl] at hcode
      simp [H.awake w l h hcode]
  · show ∀ id c, (s.cpu.finish exitCode).tm.finishTasks id = some c → _
    rw [hcodes]
    intro id c h
    by_cases hid : id = s.cpu.executing
    · simpa [hid] using h
    · simpa [hid] using H.code id c (by simpa [hid] using h)
  · show ∀ id c, _ → _ → (s.cpu.finish exitCode).tm.finishTasks id = some c
    rw [hcodes]
    intro id c h hnot
    by_cases hid : id = s.cpu.executing
    · simpa [hid] using h
    · simpa [hid] using H.kept id c (by simpa [hid] using h) hnot
  · show ∀ t ∈ (s.cpu.finish exitCode).tm.tasks, _
    rw [htasks]
    intro t ht
    have hne : t ≠ s.cpu.executing := (H.cpu.sched.tasks_nodup.mem_erase_iff.mp ht).1
    exact (Function.update_of_ne hne ..).trans (H.alive t (List.mem_of_mem_erase ht))
  · show ∀ t, _ → t ≤ (s.cpu.finish exitCode).tm.latestId
    rw [hid]
    intro t ht
    by_cases hte : t = s.cpu.executing
    · exact hte ▸ H.cpu.sched.id_le _ H.cpu.sched.executing_mem
    · exact H.old t (by simpa [hte] using ht)

theorem waitFinishLoop (H : Inv waiterOf s) (hinv : (s.cpu.waitFinishLoop w).2.Inv)
    (hidle : s.cpu.executing ≠ kIdleTask) (hself : w.currentTask = s.cpu.executing)
    (hsingle : s.cpu.executing = waiterOf w.taskId) : Inv waiterOf (s.waitFinishLoop w) := by
  cases hcode : s.cpu.tm.finishTasks w.taskId with
  | some exitCode =>
    have heq := Cpu.waitFinishLoop_some hcode
    rw [heq] at hinv
    simp only [Handover.waitFinishLoop, heq]
    -- only the executing task was waiting for the collected one
    have hother : ∀ u l, Function.update s.cpu.waiting s.cpu.executing none u = some l →
        s.cpu.waiting u = some l ∧ l.taskId ≠ w.taskId := by
      intro u l h
      by_cases hu : u = s.cpu.executing
      · simp [hu] at h
      · rw [Function.update_of_ne hu] at h
        refine ⟨h, fun hl => hu ?_⟩
        rw [H.single u l h, hl, hsingle]
    refine ⟨hinv, ?_, ?_, ?_, ?_, ?_, H.alive, H.old⟩
    · intro u l h
      exact H.single u l (hother u l h).1
    · intro u l h hnone
      obtain ⟨hu, hl⟩ := hother u l h
      exact H.registered u l hu (by simpa [hl] using hnone)
    · intro u l h hsome
      obtain ⟨hu, hl⟩ := hother u l h
      exact H.awake u l hu (by simpa [hl] using hsome)
    · intro id c h
      by_cases hid : id = w.taskId
      · simp [hid] at h
      · exact H.code id c (by simpa [hid] using h)
    · intro id c h hnot
      by_cases hid : id = w.taskId
      · simp [hid] at hnot
      · simpa [hid] using H.kept id c h (by simpa [hid] using hnot)
  | none =>
    obtain ⟨cpu', heq, -, hwaiting, htasks, hid, hcodes, hwaiters, hrun⟩ :=
      Cpu.waitFinishLoop_none H.cpu.sched hidle hself hcode
    rw [heq] at hinv
    simp only [Handover.waitFinishLoop, heq]
    -- a task that goes on waiting is either the caller or was waiting before
    have hwait : ∀ u l, cpu'.waiting u = some l →
        u = s.cpu.executing ∧ l = w ∨ u ≠ s.cpu.executing ∧ s.cpu.waiting u = some l := by
      intro u l h
      rw [hwaiting] at h
      by_cases hu : u = s.cpu.executing
      · simp only [hu, Function.update_self, Option.some.injEq] at h
        exact .inl ⟨hu, h.symm⟩
      · exact .inr ⟨hu, by simpa [hu] using h⟩
    refine ⟨hinv, ?_, ?_, ?_, ?_, ?_, ?_, ?_⟩
    · intro u l h
      rcases hwait u l h with ⟨rfl, rfl⟩ | ⟨-, h⟩
      · exact hsingle
      · exact H.single u l h
    · show ∀ u l, cpu'.waiting u = some l → cpu'.tm.finishTasks l.taskId = none →
        cpu'.tm.finishWaiter l.taskId = some u
      rw [hcodes, hwaiters]
      intro u l h hnone
      rcases hwait u l h with ⟨rfl, rfl⟩ | ⟨hne, h⟩
      · exact Function.update_self ..
      · have hl : l.taskId ≠ w.taskId := fun hl => hne (by rw [H.single u l h, hl, hsingle])
        rw [Function.update_of_ne hl]
        exact H.registered u l h hnone
    · show ∀ u l, cpu'.waiting u = some l → cpu'.tm.finishTasks l.taskId ≠ none → _
      rw [hcodes]
      intro u l h hsome
      rcases hwait u l h with ⟨rfl, rfl⟩ | ⟨hne, h⟩
      · exact absurd hcode hsome
      · rw [hrun u, if_neg hne]
        exact H.awake u l h hsome
    · show ∀ id c, cpu'.tm.finishTasks id = some c → _
      rw [hcodes]
      exact H.code
    · show ∀ id c, _ → _ → cpu'.tm.finishTasks id = some c
      rw [hcodes]
      exact H.kept
    · show ∀ t ∈ cpu'.tm.tasks, _
      rw [htasks]
      exact H.alive
    · show ∀ t, _ → t ≤ cpu'.tm.latestId
      rw [hid]
      exact H.old

/-- Every event keeps the invariant. -/
theorem step (H : Inv waiterOf s) (h : step waiterOf s e = some s') : Inv waiterOf s' := by
  have hinv : s'.cpu.Inv := H.cpu.step (cpu_step h)
  cases e with
  | run regs =>
    cases h
    exact H.of_calls hinv rfl rfl rfl (fun _ ht => .inl ht) (Nat.le_refl _) fun _ _ _ hrun => hrun
  | newTask context =>
    cases h
    refine H.of_calls hinv rfl rfl rfl (fun t ht => ?_) (Nat.le_succ _) fun w l hw hrun => ?_
    · rcases List.mem_append.mp ht with ht | ht
      · exact .inl ht
      · exact .inr (Nat.lt_of_succ_le (Nat.le_of_eq (List.mem_singleton.mp ht).symm))
    · have hle := H.cpu.sched.id_le w (H.cpu.loop w l hw).1
      have hne : w ≠ s.cpu.tm.latestId + 1 := Nat.ne_of_lt (Nat.lt_succ_of_le hle)
      simpa [TaskManager.newTask, setTask, hne] using hrun
  | wakeup task level =>
    simp only [Handover.step, Cpu.step, Option.map_eq_some_iff, Option.ite_none_right_eq_some,
      Option.some.injEq] at h
    obtain ⟨_, ⟨-, rfl⟩, rfl⟩ := h
    refine H.of_calls hinv (by simp) (by simp) rfl (fun t ht => .inl (by simpa using ht))
      (by simp) fun w l _ hrun => ?_
    simp [wakeup_running, hrun]
  | sendMessage id msg =>
    cases h
    exact H.of_calls hinv (by simp) (by simp) rfl (fun t ht => .inl (by simpa using ht))
      (by simp) fun w l _ hrun => sendMessage_running _ _ _ _ hrun
  | sleep task =>
    simp only [Handover.step, Cpu.step, Option.map_eq_some_iff, Option.ite_none_right_eq_some,
      Option.some.injEq] at h
    obtain ⟨hnot, _, ⟨⟨hmem, hidle⟩, rfl⟩, rfl⟩ := h
    obtain ⟨-, hcalls, hrunning⟩ := Cpu.sleep_spec H.cpu.sched hmem hidle
    refine H.of_calls hinv hcalls.finishTasks hcalls.finishWaiter hcalls.waiting
      (fun t ht => .inl (hcalls.tasks ▸ ht)) (Nat.le_of_eq hcalls.latestId.symm)
      fun w l hw hrun => ?_
    have hne : w ≠ task := fun heq => by simp [← heq, hw] at hnot
    rw [hrunning, if_neg hne]
    exact hrun
  | switchTask =>
    cases h
    obtain ⟨-, hcalls, hrunning⟩ := Cpu.switchTask_spec H.cpu.sched s.cpu.regs
    exact H.of_calls hinv hcalls.finishTasks hcalls.finishWaiter hcalls.waiting
      (fun t ht => .inl (hcalls.tasks ▸ ht)) (Nat.le_of_eq hcalls.latestId.symm)
      fun w l _ hrun => (hrunning w).trans hrun
  | finish exitCode =>
    simp only [Handover.step, Cpu.step, Option.map_eq_some_iff, Option.ite_none_right_eq_some,
      Option.some.injEq] at h
    obtain ⟨_, ⟨⟨hidle, hnot⟩, rfl⟩, rfl⟩ := h
    exact H.finish hidle (by simpa using hnot) exitCode
  | waitFinish taskId =>
    have hcall := cpu_step h
    obtain ⟨⟨hsingle, hidle, hnot⟩, h⟩ := Option.ite_none_right_eq_some.mp h
    cases h
    refine H.waitFinishLoop ?_ hidle H.cpu.sched.currentTask_eq hsingle
    exact H.cpu.waitFinishLoop hidle H.cpu.sched.currentTask_eq (.inl (by simpa using hnot))
  | waitLoop =>
    obtain ⟨w, hw, rfl⟩ := Option.map_eq_some_iff.mp h
    obtain ⟨-, hidle, hself⟩ := H.cpu.loop _ w hw
    exact H.waitFinishLoop (H.cpu.waitFinishLoop hidle hself (.inr hw)) hidle hself
      (H.single _ w hw)

theorem reachable {mainCtx idleCtx regs : Ctx}
    (h : (system Ctx waiterOf).Reachable (Handover.init mainCtx idleCtx regs) s) :
    Inv waiterOf s :=
  h.invariant (fun _ _ _ H hs => H.step hs) .init

end Inv

/-- In every reachable state a finished task whose code is not collected has no sleeping waiter;
what `WaitFinish` returns is the code that the task passed to `Finish`, and then neither map has
an entry for the task; and the first turn of a `WaitFinish` call after `Finish` returns. -/
theorem finish_waitFinish (h : (system Ctx waiterOf).Reachable (init mainCtx idleCtx regs) s) :
    (∀ id, s.cpu.tm.finishTasks id = none ∨ s.cpu.tm.finishWaiter id = none) ∧
    (∀ w l, s.cpu.waiting w = some l → s.cpu.tm.finishTasks l.taskId ≠ none →
      (s.cpu.tm.task w).running = true) ∧
    (∀ w exitCode cpu', s.cpu.waitFinishLoop w = (some exitCode, cpu') →
      s.codes w.taskId = some exitCode ∧
        cpu'.tm.finishTasks w.taskId = none ∧ cpu'.tm.finishWaiter w.taskId = none) ∧
    (∀ w exitCode, s.codes w.taskId = some exitCode → s.collected w.taskId = false →
      (s.cpu.waitFinishLoop w).1 = some exitCode) ∧
    ∀ exitCode s', step waiterOf s (.finish exitCode) = some s' →
      s.codes s.cpu.executing = none := by
  have H := Inv.reachable h
  refine ⟨H.cpu.disjoint, H.awake, fun w exitCode cpu' heq => ?_, fun w exitCode hcode hnot => ?_,
    fun _ _ _ => H.alive _ H.cpu.sched.executing_mem⟩
  · cases hfin : s.cpu.tm.finishTasks w.taskId with
    | none => simp [Cpu.waitFinishLoop, hfin] at heq
    | some c =>
      rw [Cpu.waitFinishLoop_some hfin] at heq
      cases heq
      refine ⟨H.code _ _ hfin, Function.update_self .., ?_⟩
      rcases H.cpu.disjoint w.taskId with hnone | hnone
      · cases hfin.symm.trans hnone
      · exact hnone
  · rw [Cpu.waitFinishLoop_some (H.kept _ _ hcode hnot)]

/-- The main task waits for task 3, is woken twice by messages, and task 3 finishes in between. -/
theorem finish_waitFinish_spurious :
    let s := ((system Nat fun _ => 1).exec (init 0 0 0)
      [.newTask 5, .wakeup 3 1, .waitFinish 3, .sendMessage 1 .kLayerFinish, .switchTask,
        .waitLoop, .finish 7]).get rfl
    (∀ id, s.cpu.tm.finishTasks id = none ∨ s.cpu.tm.finishWaiter id = none) ∧
    (∀ w l, s.cpu.waiting w = some l → s.cpu.tm.finishTasks l.taskId ≠ none →
      (s.cpu.tm.task w).running = true) ∧
    (∀ w exitCode cpu', s.cpu.waitFinishLoop w = (some exitCode, cpu') →
      s.codes w.taskId = some exitCode ∧
        cpu'.tm.finishTasks w.taskId = none ∧ cpu'.tm.finishWaiter w.taskId = none) ∧
    (∀ w exitCode, s.codes w.taskId = some exitCode → s.collected w.taskId = false →
      (s.cpu.waitFinishLoop w).1 = some exitCode) ∧
    ∀ exitCode s', step (fun _ => 1) s (.finish exitCode) = some s' →
      s.codes s.cpu.executing = none :=
  finish_waitFinish (Transition.System.reachable_of_exec (Option.some_get _).symm)

end Handover

end MikanOS
