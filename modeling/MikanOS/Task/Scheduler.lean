import MikanOS.Library.LevelQueues
import MikanOS.Task.TaskManager

/-! # The invariant of the run queues

The queues represent the map from runnable tasks to their levels (`runnable`), the front of the
current queue is the executing task, and unless `level_changed_` is set the current level is the
highest one with a task. Each operation of the task manager is an update of `runnable`. -/

namespace MikanOS.TaskManager

open LevelQueues

variable {Ctx : Type} {tm tm' : TaskManager Ctx} {e c t : Nat} {rest : List Nat}

/-- The level of a task that is owned and `Running()`. -/
def runnable (tm : TaskManager Ctx) (t : Nat) : Option Nat :=
  if t ∈ tm.tasks ∧ (tm.task t).running = true then some (tm.task t).level else none

/-- The scheduler's invariant while the task `e` executes. -/
structure Sched (tm : TaskManager Ctx) (e : Nat) : Prop where
  queues : Represents tm.running tm.runnable
  tasks_nodup : tm.tasks.Nodup
  id_le : ∀ t ∈ tm.tasks, t ≤ tm.latestId
  level_le : ∀ t, (tm.task t).level ≤ kMaxLevel
  head : (tm.running tm.currentLevel).head? = some e
  idle_mem : kIdleTask ∈ tm.tasks
  idle_running : (tm.task kIdleTask).running = true
  top : tm.levelChanged = false → IsTop tm.running tm.currentLevel

theorem runnable_eq_some : tm.runnable t = some l ↔
    t ∈ tm.tasks ∧ (tm.task t).running = true ∧ (tm.task t).level = l := by
  simp only [runnable]
  split
  · simp_all
  · rename_i h
    exact ⟨fun hn => (by cases hn), fun hs => absurd ⟨hs.1, hs.2.1⟩ h⟩

theorem runnable_eq_none : tm.runnable t = none ↔
    (t ∈ tm.tasks → (tm.task t).running = false) := by
  simp [runnable]

namespace Sched

theorem front_eq (H : tm.Sched e) : front (tm.running tm.currentLevel) = e := by
  have := H.head
  cases h : tm.running tm.currentLevel with
  | nil => simp [h] at this
  | cons c rest => simpa [h, front] using this

theorem currentTask_eq (H : tm.Sched e) : tm.currentTask = e := H.front_eq

theorem cons_eq (H : tm.Sched e) :
    tm.running tm.currentLevel = e :: (tm.running tm.currentLevel).tail :=
  List.eq_cons_of_mem_head? H.head

theorem runnable_executing (H : tm.Sched e) : tm.runnable e = some tm.currentLevel :=
  (H.queues.mem_iff _ _).mp (H.cons_eq ▸ List.mem_cons_self)

theorem executing_mem (H : tm.Sched e) : e ∈ tm.tasks :=
  (runnable_eq_some.mp H.runnable_executing).1

theorem executing_running (H : tm.Sched e) : (tm.task e).running = true :=
  (runnable_eq_some.mp H.runnable_executing).2.1

theorem currentLevel_le (H : tm.Sched e) : tm.currentLevel ≤ kMaxLevel :=
  (runnable_eq_some.mp H.runnable_executing).2.2 ▸ H.level_le e

theorem runnable_idle (H : tm.Sched e) : tm.runnable kIdleTask ≠ none := by
  simp [runnable, H.idle_mem, H.idle_running]

end Sched

/-! ## Choosing the level -/

theorem searchLevel_spec (h : ∃ lv ≤ k, tm.running lv ≠ []) :
    tm.running (tm.searchLevel k) ≠ [] ∧
      ∀ lv ≤ k, tm.running lv ≠ [] → lv ≤ tm.searchLevel k := by
  induction k with
  | zero =>
    obtain ⟨lv, hlv, hne⟩ := h
    obtain rfl := Nat.le_zero.mp hlv
    simp only [searchLevel, if_pos hne]
    exact ⟨hne, fun lv hlv _ => hlv⟩
  | succ k ih =>
    simp only [searchLevel]
    split
    · exact ⟨by assumption, fun lv hlv _ => hlv⟩
    · rename_i hnil
      have hlow : ∀ lv ≤ k + 1, tm.running lv ≠ [] → lv ≤ k := by
        intro lv hlv hne
        rcases Nat.le_succ_iff.mp hlv with hle | rfl
        · exact hle
        · exact absurd hne hnil
      obtain ⟨lv, hlv, hne⟩ := h
      obtain ⟨h1, h2⟩ := ih ⟨lv, hlow lv hlv hne, hne⟩
      exact ⟨h1, fun lv hlv hne => h2 lv (hlow lv hlv hne) hne⟩

theorem chooseLevel_spec (tm : TaskManager Ctx) (hle : ∀ l, tm.running l ≠ [] → l ≤ kMaxLevel)
    (hne : ∃ l, tm.running l ≠ [])
    (htop : tm.levelChanged = false → IsTop tm.running tm.currentLevel) :
    tm.chooseLevel = { tm with
      levelChanged := false, currentLevel := tm.chooseLevel.currentLevel } ∧
    IsTop tm.running tm.chooseLevel.currentLevel := by
  simp only [chooseLevel]
  split
  · obtain ⟨l, hl⟩ := hne
    have hs := searchLevel_spec ⟨l, hle l hl, hl⟩
    exact ⟨rfl, hs.1, fun l hl => hs.2 l (hle l hl) hl⟩
  · rename_i hch
    have hch : tm.levelChanged = false := by simpa using hch
    exact ⟨by rw [← hch], htop hch⟩

/-- `RotateCurrentRunQueue` up to the choice of the level. -/
theorem rotate_eq (hq : tm.running tm.currentLevel = c :: rest) (sleep : Bool) :
    tm.rotateCurrentRunQueue sleep = (c,
      let queue := if sleep then rest else rest ++ [c]
      { tm with
        running := Function.update tm.running tm.currentLevel queue
        levelChanged := tm.levelChanged || queue.isEmpty : TaskManager Ctx }.chooseLevel) := by
  cases sleep with
  | true =>
    cases rest <;> simp [rotateCurrentRunQueue, popFront, setQueue, hq, front]
  | false =>
    cases rest <;> simp [rotateCurrentRunQueue, popFront, pushBack, setQueue, hq, front]

theorem chooseLevel_running (tm : TaskManager Ctx) : tm.chooseLevel.running = tm.running := by
  rw [chooseLevel]
  split <;> rfl

theorem rotate_running (hq : tm.running tm.currentLevel = c :: rest) (sleep : Bool) :
    (tm.rotateCurrentRunQueue sleep).2.running =
      Function.update tm.running tm.currentLevel (if sleep then rest else rest ++ [c]) := by
  rw [rotate_eq hq, chooseLevel_running]

/-- `RotateCurrentRunQueue` removes the front of the current queue, puts it back behind unless it
goes to sleep, and afterwards the current level is the highest one with a task. -/
theorem rotate_spec {lvl' : Nat → Option Nat} {queue : List Nat} (sleep : Bool)
    (hq : tm.running tm.currentLevel = c :: rest)
    (hqueue : queue = if sleep then rest else rest ++ [c])
    (hr : Represents (Function.update tm.running tm.currentLevel queue) lvl')
    (hle : ∀ t l, lvl' t = some l → l ≤ kMaxLevel) (hother : ∃ t, lvl' t ≠ none)
    (htop : tm.levelChanged = false → IsTop tm.running tm.currentLevel) :
    ∃ tm', tm.rotateCurrentRunQueue sleep = (c, tm') ∧
      tm' = { tm with
        running := Function.update tm.running tm.currentLevel queue
        currentLevel := tm'.currentLevel
        levelChanged := false } ∧
      IsTop tm'.running tm'.currentLevel := by
  subst hqueue
  have hspec := chooseLevel_spec { tm with
    running := Function.update tm.running tm.currentLevel (if sleep then rest else rest ++ [c])
    levelChanged := tm.levelChanged || (if sleep then rest else rest ++ [c]).isEmpty }
    (fun l hl => ?_) ?_ fun hch => ?_
  · refine ⟨_, rotate_eq hq sleep, hspec.1, ?_⟩
    rw [hspec.1]
    exact hspec.2
  · obtain ⟨t, ht⟩ := List.exists_mem_of_ne_nil _ hl
    exact hle t l ((hr.mem_iff l t).mp ht)
  · obtain ⟨t, ht⟩ := hother
    obtain ⟨l, hl⟩ := Option.ne_none_iff_exists'.mp ht
    exact ⟨l, hr.exists_mem hl⟩
  · simp only [Bool.or_eq_false_iff, List.isEmpty_eq_false_iff] at hch
    refine ⟨by simpa using hch.2, fun l hl => ?_⟩
    by_cases hcur : l = tm.currentLevel
    · exact Nat.le_of_eq hcur
    · refine (htop hch.1).le_top l ?_
      simpa [hcur] using hl

/-! ## How the operations update `runnable` -/

theorem runnable_setRunning_false (tm : TaskManager Ctx) (t : Nat) :
    (tm.setRunning t false).runnable = Function.update tm.runnable t none := by
  funext u
  by_cases h : u = t
  · simp [runnable, setRunning, setTask, h]
  · simp [runnable, setRunning, setTask, h]

theorem runnable_eraseTask (htm : tm.tasks.Nodup) (t : Nat) :
    ({ tm with tasks := tm.tasks.erase t } : TaskManager Ctx).runnable =
      Function.update tm.runnable t none := by
  funext u
  by_cases h : u = t
  · simp [runnable, h, htm.mem_erase_iff]
  · simp [runnable, h, htm.mem_erase_iff]

theorem runnable_wake (ht : t ∈ tm.tasks) (l : Nat) :
    ((tm.setLevel t l).setRunning t true).runnable =
      Function.update tm.runnable t (some l) := by
  funext u
  by_cases h : u = t
  · simp [runnable, setLevel, setRunning, setTask, h, ht]
  · simp [runnable, setLevel, setRunning, setTask, h]

theorem runnable_setLevel (ht : tm.runnable t ≠ none) (l : Nat) :
    (tm.setLevel t l).runnable = Function.update tm.runnable t (some l) := by
  funext u
  by_cases h : u = t
  · have : t ∈ tm.tasks ∧ (tm.task t).running = true := by
      simpa [runnable] using ht
    simp [runnable, setLevel, setTask, h, this]
  · simp [runnable, setLevel, setTask, h]

/-! ## The operations keep the invariant -/

theorem level_setLevel_le (H : ∀ t, (tm.task t).level ≤ kMaxLevel) (hl : l ≤ kMaxLevel)
    (t u : Nat) : ((tm.setLevel t l).task u).level ≤ kMaxLevel := by
  by_cases h : u = t
  · simpa [setLevel, setTask, h] using hl
  · simpa [setLevel, setTask, h] using H u

theorem head?_eq_front {q : List Nat} (h : q ≠ []) : q.head? = some (front q) := by
  cases q with
  | nil => exact absurd rfl h
  | cons c rest => rfl

namespace Sched

/-- The invariant speaks of neither the contexts nor the messages nor the finished tasks. -/
theorem congr (H : tm.Sched e) (hrun : tm'.running = tm.running) (htasks : tm'.tasks = tm.tasks)
    (hid : tm'.latestId = tm.latestId) (hcur : tm'.currentLevel = tm.currentLevel)
    (hch : tm'.levelChanged = tm.levelChanged)
    (hlevel : ∀ t, (tm'.task t).level = (tm.task t).level)
    (hrunning : ∀ t, (tm'.task t).running = (tm.task t).running) : tm'.Sched e := by
  have hr : tm'.runnable = tm.runnable := by
    funext t
    simp [runnable, htasks, hlevel, hrunning]
  refine ⟨?_, ?_, ?_, fun t => ?_, ?_, ?_, ?_, ?_⟩
  · rw [hrun, hr]
    exact H.queues
  · rw [htasks]
    exact H.tasks_nodup
  · rw [htasks, hid]
    exact H.id_le
  · rw [hlevel]
    exact H.level_le t
  · rw [hrun, hcur]
    exact H.head
  · rw [htasks]
    exact H.idle_mem
  · rw [hrunning]
    exact H.idle_running
  · rw [hch, hrun, hcur]
    exact H.top

theorem setContext (H : tm.Sched e) (t : Nat) (context : Ctx) :
    (tm.setContext t context).Sched e := by
  refine H.congr rfl rfl rfl rfl rfl (fun u => ?_) fun u => ?_ <;>
    by_cases h : u = t <;> simp [TaskManager.setContext, setTask, h]

theorem init (mainCtx idleCtx : Ctx) : (TaskManager.init mainCtx idleCtx).Sched 1 := by
  have hmain := (Represents.empty (α := Nat)).pushBack (a := 1) rfl kMaxLevel
  have hidle := hmain.pushBack (a := 2) rfl 0
  have hrun : (TaskManager.init mainCtx idleCtx).running =
      Function.update (Function.update (fun _ => []) kMaxLevel [1]) 0 [2] := rfl
  have htasks : (TaskManager.init mainCtx idleCtx).tasks = [1, 2] := rfl
  have hrunnable : (TaskManager.init mainCtx idleCtx).runnable =
      Function.update (Function.update (fun _ => none) 1 (some kMaxLevel)) 2 (some 0) := by
    funext t
    by_cases h2 : t = 2
    · subst h2
      rfl
    by_cases h1 : t = 1
    · subst h1
      rfl
    rw [Function.update_of_ne h2, Function.update_of_ne h1]
    exact if_neg fun h => by
      rcases List.mem_cons.mp h.1 with h | h
      · exact h1 h
      · exact h2 (List.mem_singleton.mp h)
  refine ⟨?_, ?_, ?_, fun t => ?_, rfl, ?_, rfl, fun _ => ⟨List.cons_ne_nil _ _, ?_⟩⟩
  · rw [hrun, hrunnable]
    exact hidle
  · rw [htasks]
    decide
  · intro t ht
    rw [htasks] at ht
    rcases List.mem_cons.mp ht with rfl | ht
    · exact (by decide : 1 ≤ 2)
    · exact Nat.le_of_eq (List.mem_singleton.mp ht)
  · by_cases h2 : t = 2
    · subst h2
      exact Nat.zero_le _
    by_cases h1 : t = 1
    · subst h1
      exact Nat.le_refl _
    · have : ((TaskManager.init mainCtx idleCtx).task t).level = 1 := by
        simp [TaskManager.init, newTask, setLevel, setRunning, setTask, pushBack, setQueue, h1, h2]
      rw [this]
      decide
  · rw [htasks]
    decide
  · intro l hl
    rw [hrun] at hl
    by_cases h0 : l = 0
    · exact h0 ▸ Nat.zero_le _
    by_cases h3 : l = kMaxLevel
    · exact Nat.le_of_eq h3
    · simp [h0, h3] at hl

theorem newTask (H : tm.Sched e) (context : Ctx) : (tm.newTask context).Sched e := by
  have hfresh : ∀ t ∈ tm.tasks, t ≠ tm.latestId + 1 := fun t ht h => by
    have := H.id_le t ht
    omega
  have hr : (tm.newTask context).runnable = tm.runnable := by
    funext t
    by_cases h : t = tm.latestId + 1
    · have hmem : tm.latestId + 1 ∉ tm.tasks := fun hm => hfresh _ hm rfl
      simp [runnable, TaskManager.newTask, setTask, h, hmem]
    · simp [runnable, TaskManager.newTask, setTask, h]
  refine ⟨?_, ?_, ?_, fun t => ?_, H.head, ?_, ?_, H.top⟩
  · rw [hr]
    exact H.queues
  · refine List.nodup_append.mpr ⟨H.tasks_nodup, List.nodup_singleton _, ?_⟩
    intro a ha b hb
    rw [List.mem_singleton.mp hb]
    exact hfresh a ha
  · intro t ht
    rcases List.mem_append.mp ht with ht | ht
    · exact Nat.le_succ_of_le (H.id_le t ht)
    · exact Nat.le_of_eq (List.mem_singleton.mp ht)
  · by_cases h : t = tm.latestId + 1
    · simp [TaskManager.newTask, setTask, h, kMaxLevel]
    · simpa [TaskManager.newTask, setTask, h] using H.level_le t
  · exact List.mem_append_left _ H.idle_mem
  · simpa [TaskManager.newTask, setTask, hfresh _ H.idle_mem] using H.idle_running

theorem level_of_runnable (H : tm.Sched e) (h : tm.runnable t = some l) : l ≤ kMaxLevel :=
  (runnable_eq_some.mp h).2.2 ▸ H.level_le t

theorem level_of_runnable_update (H : tm.Sched e) (t : Nat) :
    ∀ u l, Function.update tm.runnable t none u = some l → l ≤ kMaxLevel := by
  intro u l h
  by_cases hu : u = t
  · simp [hu] at h
  · exact H.level_of_runnable (by simpa [hu] using h)

/-- `SwitchTask`: the queues rotate. -/
theorem rotate (H : tm.Sched e) :
    ∃ tm', tm.rotateCurrentRunQueue false = (e, tm') ∧
      tm'.Sched tm'.currentTask ∧ tm'.levelChanged = false ∧
      ∃ running currentLevel, tm' = { tm with running, currentLevel, levelChanged := false } := by
  have hrot := H.queues.rotate H.cons_eq
  obtain ⟨tm', heq, hfields, htop⟩ := rotate_spec false H.cons_eq rfl hrot
    (fun t l h => H.level_of_runnable h) ⟨_, H.runnable_idle⟩ H.top
  refine ⟨tm', heq, ?_, by rw [hfields], _, _, hfields⟩
  refine ⟨?_, ?_, ?_, ?_, head?_eq_front htop.nonempty, ?_, ?_, fun _ => htop⟩ <;> rw [hfields]
  · exact hrot
  · exact H.tasks_nodup
  · exact H.id_le
  · exact H.level_le
  · exact H.idle_mem
  · exact H.idle_running

/-- A task that puts itself to sleep: it leaves the front of its queue. -/
theorem sleepSelf (H : tm.Sched e) (he : e ≠ kIdleTask) :
    ∃ tm', (tm.setRunning e false).rotateCurrentRunQueue true = (e, tm') ∧
      tm'.Sched tm'.currentTask ∧ tm'.levelChanged = false ∧
      ∃ running currentLevel, tm' =
        { tm.setRunning e false with running, currentLevel, levelChanged := false } := by
  have hpop := H.queues.popFront H.cons_eq
  have hrun := runnable_setRunning_false tm e
  have hidle : Function.update tm.runnable e none kIdleTask ≠ none := by
    rw [Function.update_of_ne he.symm]
    exact H.runnable_idle
  obtain ⟨tm', heq, hfields, htop⟩ := rotate_spec true
    (show (tm.setRunning e false).running _ = _ from H.cons_eq) rfl hpop (H.level_of_runnable_update e) ⟨_, hidle⟩ H.top
  refine ⟨tm', heq, ?_, by rw [hfields], _, _, hfields⟩
  refine ⟨?_, ?_, ?_, ?_, head?_eq_front htop.nonempty, ?_, ?_, fun _ => htop⟩ <;> rw [hfields]
  · rw [← hrun] at hpop
    exact hpop
  · exact H.tasks_nodup
  · exact H.id_le
  · intro t
    by_cases h : t = e
    · simpa [setRunning, setTask, h] using H.level_le e
    · simpa [setRunning, setTask, h] using H.level_le t
  · exact H.idle_mem
  · simpa [setRunning, setTask, he.symm] using H.idle_running

/-- A task that finishes: it leaves the front of its queue and the list of tasks. -/
theorem finishSelf (H : tm.Sched e) (he : e ≠ kIdleTask) :
    ∃ tm', tm.rotateCurrentRunQueue true = (e, tm') ∧
      ({ tm' with tasks := tm'.tasks.erase e } : TaskManager Ctx).Sched tm'.currentTask ∧
      ∃ running currentLevel, tm' = { tm with running, currentLevel, levelChanged := false } := by
  have hpop := H.queues.popFront H.cons_eq
  have hrun := runnable_eraseTask H.tasks_nodup e
  have hidle : Function.update tm.runnable e none kIdleTask ≠ none := by
    rw [Function.update_of_ne he.symm]
    exact H.runnable_idle
  obtain ⟨tm', heq, hfields, htop⟩ := rotate_spec true H.cons_eq rfl hpop
    (H.level_of_runnable_update e) ⟨_, hidle⟩ H.top
  refine ⟨tm', heq, ?_, _, _, hfields⟩
  refine ⟨?_, ?_, ?_, ?_, head?_eq_front htop.nonempty, ?_, ?_, fun _ => htop⟩ <;> rw [hfields]
  · rw [← hrun] at hpop
    exact hpop
  · exact H.tasks_nodup.erase e
  · exact fun t ht => H.id_le t (List.mem_of_mem_erase ht)
  · exact H.level_le
  · exact (List.mem_erase_of_ne he.symm).mpr H.idle_mem
  · exact H.idle_running

/-- A change of queues behind their fronts, with the level bookkeeping that goes with it. -/
private theorem requeue (H : tm.Sched e) (hrep : Represents tm'.running tm'.runnable)
    (htasks : tm'.tasks = tm.tasks) (hid : tm'.latestId = tm.latestId)
    (hcur : tm'.currentLevel = tm.currentLevel)
    (hlevel : ∀ t, (tm'.task t).level ≤ kMaxLevel)
    (hidle : (tm'.task kIdleTask).running = true)
    (hhead : (tm'.running tm.currentLevel).head? = some e)
    (htop : tm'.levelChanged = false → tm.levelChanged = false ∧
      ∀ l, tm'.running l ≠ [] → tm.running l ≠ [] ∨ l ≤ tm.currentLevel) : tm'.Sched e := by
  rw [← hcur] at hhead
  refine ⟨hrep, ?_, ?_, hlevel, hhead, ?_, hidle, fun hch => ⟨?_, fun l hl => ?_⟩⟩
  · rw [htasks]
    exact H.tasks_nodup
  · rw [htasks, hid]
    exact H.id_le
  · rw [htasks]
    exact H.idle_mem
  · intro h
    rw [h] at hhead
    cases hhead
  · obtain ⟨hch, hnew⟩ := htop hch
    rw [hcur]
    rcases hnew l hl with hne | hle
    · exact (H.top hch).le_top _ hne
    · exact hle

end Sched

theorem head?_update {q : Nat → List Nat} {queue : List Nat} (h : (q k).head? = some e)
    (hself : l = k → queue.head? = some e) : (Function.update q l queue k).head? = some e := by
  by_cases hl : l = k
  · subst hl
    rw [Function.update_self]
    exact hself rfl
  · rwa [Function.update_of_ne (Ne.symm hl)]

theorem head?_erase {q : List Nat} (h : q.head? = some e) (ht : t ≠ e) :
    (erase q t).head? = some e := by
  cases q with
  | nil => cases h
  | cons c rest =>
    obtain rfl : c = e := by simpa using h
    simp [erase, Ne.symm ht]

theorem head?_append {q : List Nat} (h : q.head? = some e) : (q ++ [t]).head? = some e := by
  cases q with
  | nil => cases h
  | cons c rest => exact h

theorem ne_nil_of_erase {q : List Nat} (h : erase q t ≠ []) : q ≠ [] := by
  intro hq
  exact h (by rw [hq]; rfl)

namespace Sched

/-- `Sleep` of another task: it is erased from its queue. -/
theorem sleepOther (H : tm.Sched e) (ht : t ≠ e) (hidle : t ≠ kIdleTask)
    (hr : tm.runnable t = some l) :
    ((tm.setRunning t false).setQueue l (TaskManager.erase (tm.running l) t)).Sched e := by
  have hq := H.queues.erase hr
  rw [← runnable_setRunning_false] at hq
  refine H.requeue hq rfl rfl rfl (fun u => ?_) ?_ ?_ fun hch => ⟨hch, fun l' hl' => .inl ?_⟩
  · by_cases h : u = t
    · simpa [setQueue, setRunning, setTask, h] using H.level_le t
    · simpa [setQueue, setRunning, setTask, h] using H.level_le u
  · simpa [setQueue, setRunning, setTask, hidle.symm] using H.idle_running
  · exact head?_update H.head fun h => head?_erase (h ▸ H.head) ht
  · by_cases h : l' = l
    · subst h
      exact ne_nil_of_erase (t := t) (by simpa [setQueue] using hl')
    · simpa [setQueue, setRunning, setTask, h] using hl'

/-- `ChangeLevelRunning` of another task: it moves to the back of its new queue. -/
theorem changeLevelOther (H : tm.Sched e) (ht : t ≠ e) (hr : tm.runnable t = some old)
    (hl : l ≤ kMaxLevel) {b : Bool}
    (hb : b = false → tm.levelChanged = false ∧ l ≤ tm.currentLevel) :
    ({ ((tm.setQueue old (TaskManager.erase (tm.running old) t)).pushBack l t).setLevel t l with
        levelChanged := b } : TaskManager Ctx).Sched e := by
  have herase := H.queues.erase hr
  have hpush := herase.pushBack (Function.update_self t none tm.runnable) l
  rw [Function.update_idem, ← runnable_setLevel (by simp [hr])] at hpush
  have hhead : (Function.update tm.running old (TaskManager.erase (tm.running old) t)
      tm.currentLevel).head? = some e :=
    head?_update H.head fun h => head?_erase (h ▸ H.head) ht
  refine H.requeue hpush rfl rfl rfl (level_setLevel_le H.level_le hl t) ?_ ?_ fun hch => ?_
  · by_cases h : kIdleTask = t
    · simpa [setLevel, setTask, pushBack, setQueue, h] using h ▸ H.idle_running
    · simpa [setLevel, setTask, pushBack, setQueue, h] using H.idle_running
  · exact head?_update hhead fun h => head?_append (h ▸ hhead)
  · refine ⟨(hb hch).1, fun l' hl' => ?_⟩
    by_cases h : l' = l
    · exact .inr (h ▸ (hb hch).2)
    · refine .inl ?_
      have hl' : Function.update tm.running old (TaskManager.erase (tm.running old) t) l' ≠ [] := by
        simpa [setLevel, setTask, pushBack, setQueue, h] using hl'
      by_cases ho : l' = old
      · subst ho
        exact ne_nil_of_erase (t := t) (by simpa using hl')
      · simpa [ho] using hl'

/-- `ChangeLevelRunning` of the executing task: it stays in front. -/
theorem changeLevelSelf (H : tm.Sched e) (hl : l ≤ kMaxLevel) {b : Bool}
    (hb : b = false → tm.levelChanged = false ∧ tm.currentLevel ≤ l) :
    ({ ((tm.popFront tm.currentLevel).pushFront l e).setLevel e l with
        currentLevel := l, levelChanged := b } : TaskManager Ctx).Sched e := by
  have hpop := H.queues.popFront H.cons_eq
  have hpush := hpop.pushFront (Function.update_self e none tm.runnable) l
  rw [Function.update_idem, ← runnable_setLevel (by simp [H.runnable_executing])] at hpush
  have hself : Function.update (Function.update tm.running tm.currentLevel
      (tm.running tm.currentLevel).tail) l (e :: Function.update tm.running tm.currentLevel
        (tm.running tm.currentLevel).tail l) l = e :: _ := Function.update_self ..
  refine ⟨hpush, H.tasks_nodup, H.id_le, level_setLevel_le H.level_le hl e, ?_, H.idle_mem, ?_,
    fun hch => ⟨?_, fun l' hl' => ?_⟩⟩
  · exact (congrArg List.head? hself).trans rfl
  · by_cases h : kIdleTask = e
    · simpa [setLevel, setTask, pushFront, popFront, setQueue, h] using h ▸ H.idle_running
    · simpa [setLevel, setTask, pushFront, popFront, setQueue, h] using H.idle_running
  · exact fun h => List.cons_ne_nil _ _ (hself.symm.trans h)
  · obtain ⟨hch, hle⟩ := hb hch
    by_cases h : l' = l
    · exact Nat.le_of_eq h
    by_cases hc : l' = tm.currentLevel
    · exact hc ▸ hle
    · refine Nat.le_trans ((H.top hch).le_top l' ?_) hle
      simpa [setLevel, setTask, pushFront, popFront, setQueue, h, hc] using hl'

theorem changeLevelRunning (H : tm.Sched e) (hr : tm.runnable t ≠ none) {level : Int}
    (hl : level ≤ kMaxLevel) : (tm.changeLevelRunning t level).Sched e := by
  obtain ⟨old, hold⟩ := Option.ne_none_iff_exists'.mp hr
  have hlevel : (tm.task t).level = old := (runnable_eq_some.mp hold).2.2
  have hl' : level.toNat ≤ kMaxLevel := by omega
  simp only [TaskManager.changeLevelRunning, H.front_eq, hlevel]
  split
  · exact H
  split
  · rename_i ht
    split
    · exact H.changeLevelOther ht hold hl' (fun hb => by cases hb)
    · rename_i hle
      have hle : ¬ tm.currentLevel < level.toNat := hle
      exact H.changeLevelOther ht hold hl' (fun hb => ⟨hb, by omega⟩)
  · rename_i ht
    obtain rfl : t = e := by simpa using ht
    split
    · rename_i hle
      exact H.changeLevelSelf hl' (fun hb => ⟨hb, hle⟩)
    · exact H.changeLevelSelf hl' (fun hb => by cases hb)

/-- A sleeping task joins the back of a queue. -/
theorem wake (H : tm.Sched e) (ht : t ∈ tm.tasks) (hr : tm.runnable t = none)
    (hl : l ≤ kMaxLevel) {b : Bool}
    (hb : b = false → tm.levelChanged = false ∧ l ≤ tm.currentLevel) :
    ({ ((tm.setLevel t l).setRunning t true).pushBack l t with
        levelChanged := b } : TaskManager Ctx).Sched e := by
  have hpush := H.queues.pushBack hr l
  rw [← runnable_wake ht l] at hpush
  refine H.requeue hpush rfl rfl rfl (fun u => ?_) ?_ ?_ fun hch => ⟨(hb hch).1, fun l' hl' => ?_⟩
  · by_cases h : u = t
    · simpa [setLevel, setRunning, setTask, pushBack, setQueue, h] using hl
    · simpa [setLevel, setRunning, setTask, pushBack, setQueue, h] using H.level_le u
  · by_cases h : kIdleTask = t
    · simp [setLevel, setRunning, setTask, pushBack, setQueue, h]
    · simpa [setLevel, setRunning, setTask, pushBack, setQueue, h] using H.idle_running
  · exact head?_update H.head fun h => head?_append (h ▸ H.head)
  · by_cases h : l' = l
    · exact .inr (h ▸ (hb hch).2)
    · exact .inl (by simpa [setLevel, setRunning, setTask, pushBack, setQueue, h] using hl')

theorem wakeup (H : tm.Sched e) (ht : t ∈ tm.tasks) {level : Int} (hl : level ≤ kMaxLevel) :
    (tm.wakeup t level).Sched e := by
  simp only [TaskManager.wakeup]
  split
  · rename_i hrun
    exact H.changeLevelRunning (by simp [runnable, ht, hrun]) hl
  · rename_i hrun
    have hr : tm.runnable t = none := runnable_eq_none.mpr fun _ => by simpa using hrun
    have hl' : (if level < 0 then (tm.task t).level else level.toNat) ≤ kMaxLevel := by
      split
      · exact H.level_le t
      · omega
    generalize (if level < 0 then (tm.task t).level else level.toNat) = l at hl' ⊢
    split
    · exact H.wake ht hr hl' (fun hb => by cases hb)
    · rename_i hle
      exact H.wake ht hr hl' (fun hb => ⟨hb, Nat.le_of_not_lt hle⟩)

end Sched

/-- `Wakeup` with the default argument leaves a running task alone. -/
theorem wakeup_of_running (h : (tm.task t).running = true) : tm.wakeup t (-1) = tm := by
  rw [wakeup, if_pos h, changeLevelRunning, if_pos (.inl (by decide))]

/-- `Wakeup` with the default argument puts a sleeping task behind those of its level. -/
theorem wakeup_of_sleeping (h : (tm.task t).running = false) : tm.wakeup t (-1) =
    { ((tm.setLevel t (tm.task t).level).setRunning t true).pushBack (tm.task t).level t with
      levelChanged := tm.levelChanged || decide (tm.currentLevel < (tm.task t).level) } := by
  have hneg : (-1 : Int) < 0 := by decide
  simp only [wakeup, h, Bool.false_eq_true, if_false, hneg, if_true]
  split
  · rename_i hlt
    have hlt' : tm.currentLevel < (tm.task t).level := hlt
    rw [decide_eq_true hlt', Bool.or_true]
  · rename_i hle
    have hle' : ¬tm.currentLevel < (tm.task t).level := hle
    rw [decide_eq_false hle', Bool.or_false]
    rfl

namespace Sched

theorem setMsgs (H : tm.Sched e) (id : Nat) (msgs : List Message) :
    (tm.setTask id { tm.task id with msgs }).Sched e := by
  refine H.congr rfl rfl rfl rfl rfl (fun u => ?_) fun u => ?_ <;>
    by_cases h : u = id <;> simp [setTask, h]

theorem sendMessage (H : tm.Sched e) (id : Nat) (msg : Message) :
    (tm.sendMessage id msg).2.Sched e := by
  simp only [TaskManager.sendMessage]
  split
  · rename_i hid
    exact (H.setMsgs id _).wakeup hid (show (-1 : Int) ≤ kMaxLevel by decide)
  · exact H

end Sched

end MikanOS.TaskManager
