import MikanOS.Library.RoundRobin
import MikanOS.Task.Dispatch

/-! # Turns at a level

Between two dispatches of a task, the others at its level have their turn. What a call does to the queues is
said first, for all calls alike; who is still to have a turn follows from it. -/

namespace MikanOS

open RoundRobin

variable {Ctx : Type}

namespace TaskManager

variable {tm tm' : TaskManager Ctx} {e t : Nat}

/-- Where one queue is replaced, that one changes. -/
theorem requeued_update {q : Nat → List Nat} {queue : List Nat} (h : Requeued e (q k) queue) (l : Nat) :
    Requeued e (q l) (Function.update q k queue l) := by
  by_cases hl : l = k
  · subst hl
    rwa [Function.update_self]
  · rw [Function.update_of_ne hl]
    exact .refl e _

namespace Sched

theorem notMem_of_ne (H : tm.Sched e) (ht : tm.runnable t = some old) (hl : l ≠ old) :
    t ∉ tm.running l := by
  intro h
  have hlevel := (H.queues.mem_iff l t).mp h
  rw [ht] at hlevel
  exact hl (Option.some.inj hlevel).symm

/-- Without its front, the current queue is without the executing task, as the others are. -/
theorem update_tail_eq (H : tm.Sched e) (l : Nat) :
    Function.update tm.running tm.currentLevel (tm.running tm.currentLevel).tail l =
      (tm.running l).filter (· ≠ e) := by
  have hself : ∀ q : List Nat, e ∉ q → q.filter (· ≠ e) = q := fun q hq =>
    List.filter_eq_self.mpr fun c hc => decide_eq_true fun hce => hq (hce ▸ hc)
  by_cases hl : l = tm.currentLevel
  · subst hl
    have hnd := H.queues.nodup tm.currentLevel
    rw [H.cons_eq, List.nodup_cons] at hnd
    rw [Function.update_self, H.cons_eq, List.filter_cons_of_neg (by simp), List.tail_cons,
      hself _ hnd.1]
  · rw [Function.update_of_ne hl, hself _ (H.notMem_of_ne H.runnable_executing hl)]

/-! ## The queues after a call -/

theorem changeLevelRunning_requeued (H : tm.Sched e) (ht : tm.runnable t ≠ none) (level : Int) (l : Nat) :
    Requeued e (tm.running l) ((tm.changeLevelRunning t level).running l) := by
  obtain ⟨old, hold⟩ := Option.ne_none_iff_exists'.mp ht
  have hlevel : (tm.task t).level = old := (runnable_eq_some.mp hold).2.2
  simp only [TaskManager.changeLevelRunning, H.front_eq, hlevel]
  split
  · exact .refl e _
  rename_i hchange
  have hne : level.toNat ≠ old := fun h => hchange (by omega)
  split
  · -- it leaves one queue and joins another one behind
    have hother : Requeued e (tm.running l) (Function.update (Function.update tm.running old
        (erase (tm.running old) t)) level.toNat (Function.update tm.running old
          (erase (tm.running old) t) level.toNat ++ [t]) l) := by
      rw [Function.update_of_ne hne]
      by_cases hl : l = level.toNat
      · subst hl
        rw [Function.update_self]
        exact .append (H.notMem_of_ne hold hne)
      · rw [Function.update_of_ne hl]
        exact requeued_update (.filter e _ _) l
    split <;> exact hother
  · rename_i ht
    obtain rfl : t = e := by simpa using ht
    have hcur : tm.currentLevel = old := Option.some.inj (H.runnable_executing.symm.trans hold)
    have hne : level.toNat ≠ tm.currentLevel := hcur.symm ▸ hne
    have hself : Requeued t (tm.running l) (Function.update (Function.update tm.running tm.currentLevel
        (tm.running tm.currentLevel).tail) level.toNat (t :: Function.update tm.running tm.currentLevel
          (tm.running tm.currentLevel).tail level.toNat) l) := by
      rw [Function.update_of_ne hne]
      by_cases hl : l = level.toNat
      · subst hl
        rw [Function.update_self]
        exact .cons t _
      · rw [Function.update_of_ne hl, H.update_tail_eq]
        exact .filter t _ _
    split <;> exact hself

theorem wakeup_requeued (H : tm.Sched e) (ht : t ∈ tm.tasks) (level : Int) (l : Nat) :
    Requeued e (tm.running l) ((tm.wakeup t level).running l) := by
  simp only [TaskManager.wakeup]
  split
  · rename_i hrun
    exact H.changeLevelRunning_requeued (by simp [runnable, ht, hrun]) level l
  · rename_i hrun
    have hr : tm.runnable t = none := runnable_eq_none.mpr fun _ => by simpa using hrun
    generalize (if level < 0 then (tm.task t).level else level.toNat) = lv
    have hwake : Requeued e (tm.running l)
        (Function.update tm.running lv (tm.running lv ++ [t]) l) :=
      requeued_update (.append (H.queues.not_mem_of_none hr lv)) l
    split <;> exact hwake

theorem sendMessage_requeued (H : tm.Sched e) (id : Nat) (msg : Message) (l : Nat) :
    Requeued e (tm.running l) ((tm.sendMessage id msg).2.running l) := by
  simp only [TaskManager.sendMessage]
  split
  · rename_i hid
    exact (H.setMsgs id _).wakeup_requeued hid (-1) l
  · exact .refl e _

/-- `RotateCurrentRunQueue` takes the turn from the executing task. -/
theorem rotated (H : tm.Sched e) (tm' : TaskManager Ctx) (hrun : tm'.running = tm.running)
    (hcur : tm'.currentLevel = tm.currentLevel) (sleep : Bool) (l : Nat) :
    Rotated e (tm.running l) ((tm'.rotateCurrentRunQueue sleep).2.running l) := by
  have hq : tm'.running tm'.currentLevel = e :: (tm.running tm.currentLevel).tail := by
    rw [hrun, hcur]
    exact H.cons_eq
  rw [rotate_running hq, hrun, hcur]
  have htail := H.update_tail_eq l
  cases sleep with
  | true => exact ⟨[], by rw [List.append_nil]; exact htail, Nat.zero_le _, fun _ h => by cases h⟩
  | false =>
    by_cases hl : l = tm.currentLevel
    · subst hl
      rw [Function.update_self] at htail
      rw [Function.update_self, htail]
      exact ⟨[e], rfl, Nat.le_refl _, fun _ h => .inl (List.mem_singleton.mp h)⟩
    · rw [Function.update_of_ne hl] at htail
      rw [Function.update_of_ne hl]
      exact ⟨[], by rw [List.append_nil]; exact htail, Nat.zero_le _, fun _ h => by cases h⟩

end Sched

end TaskManager

namespace Cpu

variable {cpu cpu' : Cpu Ctx} {e : Event Ctx} {mainCtx idleCtx regs : Ctx}

theorem switchTask_rotated (H : cpu.tm.Sched cpu.executing) (ctx : Ctx) (l : Nat) :
    Rotated cpu.executing (cpu.tm.running l) ((cpu.switchTask ctx).tm.running l) := by
  have hrot := H.rotated (cpu.tm.setContext cpu.executing ctx) rfl rfl false l
  simp only [switchTask, H.currentTask_eq]
  split <;> exact hrot

theorem sleep_rotated (H : cpu.tm.Sched cpu.executing) (l : Nat) :
    Rotated cpu.executing (cpu.tm.running l) ((cpu.sleep cpu.executing).tm.running l) := by
  have hfront : cpu.executing = TaskManager.front ((cpu.tm.setRunning cpu.executing false).running
      (cpu.tm.setRunning cpu.executing false).currentLevel) := H.front_eq.symm
  have hrot := H.rotated (cpu.tm.setRunning cpu.executing false) rfl rfl true l
  rw [sleep, if_neg (by simp [H.executing_running])]
  simp only [if_pos hfront]
  exact hrot

/-- `Finish` takes the turn from the executing task, and the one that it wakes joins behind. -/
theorem finish_rotated (H : Inv cpu) (hidle : cpu.executing ≠ kIdleTask)
    (exitCode : Int) (l : Nat) :
    Rotated cpu.executing (cpu.tm.running l) ((cpu.finish exitCode).tm.running l) := by
  obtain ⟨tm, -, -, -, htask, hrunning, hfinish⟩ := finish_eq H.sched hidle exitCode
  have hfilter : ∀ l, tm.running l = (cpu.tm.running l).filter (· ≠ cpu.executing) := fun l => by
    rw [hrunning, H.sched.update_tail_eq]
  have hself : Rotated cpu.executing (cpu.tm.running l) (tm.running l) :=
    ⟨[], by rw [List.append_nil, hfilter], Nat.zero_le _, fun _ h => by cases h⟩
  rw [hfinish]
  cases cpu.tm.finishWaiter cpu.executing with
  | none => exact hself
  | some w =>
    cases hrun : (tm.task w).running with
    | true =>
      simp only [TaskManager.wakeup_of_running hrun]
      exact hself
    | false =>
      have hnone : cpu.tm.runnable w = none :=
        TaskManager.runnable_eq_none.mpr fun _ => htask ▸ hrun
      simp only [TaskManager.wakeup_of_sleeping hrun]
      show Rotated _ _ (Function.update tm.running (tm.task w).level
        (tm.running (tm.task w).level ++ [w]) l)
      by_cases hl : l = (tm.task w).level
      · subst hl
        rw [Function.update_self, hfilter]
        refine ⟨[w], rfl, Nat.le_refl _, fun v hv => .inr ?_⟩
        rw [List.mem_singleton.mp hv]
        exact H.sched.queues.not_mem_of_none hnone _
      · rw [Function.update_of_ne hl]
        exact hself

/-- The queues change in the turn of the executing task, and the turn is taken from it if another task
executes afterwards. -/
structure TakesTurns (cpu cpu' : Cpu Ctx) : Prop where
  requeued : ∀ l, Requeued cpu.executing (cpu.tm.running l) (cpu'.tm.running l)
  rotated : cpu'.executing ≠ cpu.executing →
    ∀ l, Rotated cpu.executing (cpu.tm.running l) (cpu'.tm.running l)

namespace TakesTurns

theorem of_same (he : cpu'.executing = cpu.executing)
    (hq : ∀ l, Requeued cpu.executing (cpu.tm.running l) (cpu'.tm.running l)) :
    TakesTurns cpu cpu' := ⟨hq, fun hne => absurd he hne⟩

theorem of_rotated (hq : ∀ l, Rotated cpu.executing (cpu.tm.running l) (cpu'.tm.running l)) :
    TakesTurns cpu cpu' := ⟨fun l => (hq l).requeued, fun _ => hq⟩

theorem waitFinishLoop (H : cpu.tm.Sched cpu.executing) (hw : w.currentTask = cpu.executing) :
    TakesTurns cpu (cpu.waitFinishLoop w).2 := by
  cases hcode : cpu.tm.finishTasks w.taskId with
  | some exitCode =>
    rw [waitFinishLoop_some hcode]
    exact of_same rfl fun l => .refl _ _
  | none =>
    simp only [Cpu.waitFinishLoop, hcode, hw]
    exact of_rotated (sleep_rotated (H.congr rfl rfl rfl rfl rfl (fun _ => rfl) fun _ => rfl))

theorem sleep (H : cpu.tm.Sched cpu.executing) (task : Nat) : TakesTurns cpu (cpu.sleep task) := by
  by_cases hself : task = cpu.executing
  · subst hself
    exact of_rotated (sleep_rotated H)
  · cases hrun : (cpu.tm.task task).running with
    | false =>
      rw [Cpu.sleep, if_pos hrun]
      exact of_same rfl fun l => .refl _ _
    | true =>
      rw [sleep_other_eq H hself hrun]
      exact of_same rfl (TaskManager.requeued_update (.filter _ _ _))

/-- Every event changes the queues so. -/
theorem step (H : Inv cpu) (h : cpu.step e = some cpu') : TakesTurns cpu cpu' := by
  cases e with
  | run regs =>
    cases h
    exact of_same rfl fun l => .refl _ _
  | newTask context =>
    cases h
    exact of_same rfl fun l => .refl _ _
  | wakeup task level =>
    simp only [Cpu.step, Option.ite_none_right_eq_some, Option.some.injEq] at h
    obtain ⟨⟨hmem, -⟩, rfl⟩ := h
    exact of_same rfl (H.sched.wakeup_requeued hmem level)
  | sendMessage id msg =>
    cases h
    exact of_same rfl (H.sched.sendMessage_requeued id msg)
  | sleep task =>
    simp only [Cpu.step, Option.ite_none_right_eq_some, Option.some.injEq] at h
    obtain ⟨-, rfl⟩ := h
    exact sleep H.sched task
  | switchTask =>
    cases h
    exact of_rotated (switchTask_rotated H.sched cpu.regs)
  | finish exitCode =>
    simp only [Cpu.step, Option.ite_none_right_eq_some, Option.some.injEq] at h
    obtain ⟨⟨hidle, -⟩, rfl⟩ := h
    exact of_rotated (finish_rotated H hidle exitCode)
  | waitFinish taskId =>
    simp only [Cpu.step, Option.ite_none_right_eq_some, Option.some.injEq] at h
    obtain ⟨-, rfl⟩ := h
    exact waitFinishLoop H.sched H.sched.currentTask_eq
  | waitLoop =>
    obtain ⟨w, hw, rfl⟩ := Option.map_eq_some_iff.mp h
    exact waitFinishLoop H.sched (H.loop _ w hw).2.2

end TakesTurns

/-! ## Who is still to have a turn -/

/-- `t` stands before `a` in the queue of level `l`, or `a` has the turn itself. -/
def Awaits (a l t : Nat) (cpu : Cpu Ctx) : Prop :=
  cpu.executing = a ∨ t ∈ ahead a (cpu.tm.running l) ∧ t ≠ cpu.executing

instance (a l t : Nat) (cpu : Cpu Ctx) : Decidable (Awaits a l t cpu) :=
  inferInstanceAs (Decidable (_ ∨ _))

/-- The turns that `t` is still to have before `a` has one. -/
def turns (a l t : Nat) (cpu : Cpu Ctx) : Nat := if Awaits a l t cpu then 1 else 0

/-- The task that the step from `cpu` to `cpu'` dispatches, with its level. -/
def dispatched (cpu cpu' : Cpu Ctx) : List (Nat × Nat) :=
  if cpu'.executing = cpu.executing then [] else [(cpu'.executing, cpu'.tm.currentLevel)]

/-- The tasks that the events dispatch, one after the other, each with the level. -/
def dispatches (cpu : Cpu Ctx) : List (Event Ctx) → List (Nat × Nat)
  | [] => []
  | e :: es =>
    match cpu.step e with
    | none => []
    | some cpu' => dispatched cpu cpu' ++ dispatches cpu' es

variable {a l t : Nat}

theorem mem_dispatched : (t, l) ∈ dispatched cpu cpu' ↔
    cpu'.executing ≠ cpu.executing ∧ cpu'.executing = t ∧ cpu'.tm.currentLevel = l := by
  rw [dispatched]
  split
  · rename_i h
    simp [h]
  · rename_i h
    simp [h, eq_comm]

/-- The dispatched task is in front of the queue of its level. -/
theorem head_of_dispatched (H : Inv cpu') (hd : (t, l) ∈ dispatched cpu cpu') :
    (cpu'.tm.running l).head? = some t := by
  obtain ⟨-, rfl, rfl⟩ := mem_dispatched.mp hd
  exact H.sched.head

section

variable (H : Inv cpu) (H' : Inv cpu') (T : TakesTurns cpu cpu') (ha : a ∈ cpu.tm.running l)
  (ha' : a ∈ cpu'.tm.running l) (hnot : cpu'.executing = a → cpu.executing = a)

include T ha ha' in
/-- Whoever stands ahead of `a` stood there before, unless it has the turn. -/
theorem ahead_of_turn (hne : cpu.executing ≠ a) (ht : t ∈ ahead a (cpu'.tm.running l)) :
    t ∈ ahead a (cpu.tm.running l) ∧ t ≠ cpu.executing ∨
      t = cpu.executing ∧ cpu'.executing = cpu.executing := by
  by_cases hte : t = cpu.executing
  · refine .inr ⟨hte, ?_⟩
    by_contra hswitch
    exact (T.rotated hswitch l).notMem_ahead ha hne (hte ▸ ht)
  · exact .inl ⟨((T.requeued l).ahead_subset ha ha' hne ht).resolve_right hte, hte⟩

include T ha ha' hnot in
theorem awaits_of_awaits (h : Awaits a l t cpu') :
    Awaits a l t cpu ∧ (t, l) ∉ dispatched cpu cpu' := by
  rcases h with h | ⟨hahead, hne⟩
  · have hsame := hnot h
    exact ⟨.inl hsame, fun hd => (mem_dispatched.mp hd).1 (h.trans hsame.symm)⟩
  · refine ⟨?_, fun hd => hne (mem_dispatched.mp hd).2.1.symm⟩
    by_cases hea : cpu.executing = a
    · exact .inl hea
    · rcases ahead_of_turn T ha ha' hea hahead with hbefore | ⟨rfl, hsame⟩
      · exact .inr hbefore
      · exact absurd hsame.symm hne

include T ha ha' H' in
theorem awaits_of_dispatched (hta : t ≠ a) (hd : (t, l) ∈ dispatched cpu cpu') :
    Awaits a l t cpu := by
  by_cases hea : cpu.executing = a
  · exact .inl hea
  · have hahead := head_mem_ahead (head_of_dispatched H' hd) hta
    rcases ahead_of_turn T ha ha' hea hahead with hbefore | ⟨-, hsame⟩
    · exact .inr hbefore
    · exact absurd hsame (mem_dispatched.mp hd).1

include T ha ha' in
/-- Whoever stays at the level waits on. -/
theorem mem_ahead_of_awaits (hta : t ≠ a) (ht' : t ∈ cpu'.tm.running l) (h : Awaits a l t cpu)
    (hnot : cpu'.executing ≠ a) : t ∈ ahead a (cpu'.tm.running l) := by
  rcases h with rfl | ⟨hahead, hne⟩
  · exact (T.rotated hnot l).mem_ahead_self ha' ht' hta
  · by_cases hea : cpu.executing = a
    · subst hea
      exact (T.rotated hnot l).mem_ahead_self ha' ht' hta
    · exact (T.requeued l).mem_ahead ha' hea hahead hne ht' ha

include T ha ha' H' in
theorem dispatched_or_awaits (hta : t ≠ a) (ht' : t ∈ cpu'.tm.running l) (h : Awaits a l t cpu) :
    (t, l) ∈ dispatched cpu cpu' ∨ Awaits a l t cpu' := by
  by_cases hea : cpu'.executing = a
  · exact .inr (.inl hea)
  · have hahead := mem_ahead_of_awaits T ha ha' hta ht' h hea
    by_cases hte : t = cpu'.executing
    · subst hte
      have hswitch : cpu'.executing ≠ cpu.executing := by
        rcases h with rfl | ⟨-, hne⟩
        · exact hta
        · exact hne
      have hlevel := (H'.sched.queues.mem_iff l _).mp ht'
      rw [H'.sched.runnable_executing] at hlevel
      exact .inl (mem_dispatched.mpr ⟨hswitch, rfl, Option.some.inj hlevel⟩)
    · exact .inr (.inr ⟨hahead, hte⟩)

theorem count_dispatched_le (cpu cpu' : Cpu Ctx) (d : Nat × Nat) :
    (dispatched cpu cpu').count d ≤ 1 := by
  refine List.count_le_length.trans ?_
  rw [dispatched]
  split
  · exact Nat.zero_le _
  · exact Nat.le_refl _

include T ha ha' H' hnot in
/-- A dispatch uses up a turn. -/
theorem count_dispatched_add_turns_le (hta : t ≠ a) :
    (dispatched cpu cpu').count (t, l) + turns a l t cpu' ≤ turns a l t cpu := by
  have hle := count_dispatched_le cpu cpu' (t, l)
  by_cases haw : Awaits a l t cpu
  · rw [turns, turns, if_pos haw]
    split
    · rename_i haw'
      rw [List.count_eq_zero.mpr (awaits_of_awaits T ha ha' hnot haw').2]
    · exact hle
  · have hnone : (t, l) ∉ dispatched cpu cpu' := fun hd =>
      haw (awaits_of_dispatched H' T ha ha' hta hd)
    have haw' : ¬Awaits a l t cpu' := fun h => haw (awaits_of_awaits T ha ha' hnot h).1
    rw [List.count_eq_zero.mpr hnone, turns, if_neg haw']
    exact Nat.zero_le _

include T ha ha' H' hnot in
/-- Whoever stays at the level loses a turn only by a dispatch. -/
theorem count_dispatched_add_turns (hta : t ≠ a) (ht' : t ∈ cpu'.tm.running l) :
    (dispatched cpu cpu').count (t, l) + turns a l t cpu' = turns a l t cpu := by
  refine Nat.le_antisymm (count_dispatched_add_turns_le H' T ha ha' hnot hta) ?_
  by_cases haw : Awaits a l t cpu
  · rw [turns, if_pos haw]
    rcases dispatched_or_awaits H' T ha ha' hta ht' haw with hd | haw'
    · exact Nat.le_add_right_of_le (List.count_pos_iff.mpr hd)
    · rw [turns, if_pos haw']
      exact Nat.le_add_left _ _
  · rw [turns, if_neg haw]
    exact Nat.zero_le _

end

/-! ## Runs -/

theorem dispatches_cons (hs : cpu.step e = some cpu') (es : List (Event Ctx)) :
    dispatches cpu (e :: es) = dispatched cpu cpu' ++ dispatches cpu' es := by
  rw [dispatches, hs]

theorem mem_running_of_runnable (H : Inv cpu) (h : cpu.tm.runnable t = some l) :
    t ∈ cpu.tm.running l := (H.sched.queues.mem_iff l t).mpr h

/-- In a run without a dispatch of `a`, each dispatch of another task at the level uses up a turn. -/
theorem count_dispatches (H : Inv cpu) (hrun : system.Run cpu es cpu')
    (hnone : ∀ d ∈ dispatches cpu es, d.1 ≠ a)
    (ha : system.Throughout (fun u => u.tm.runnable a = some l) cpu es) (hta : t ≠ a) :
    (dispatches cpu es).count (t, l) + turns a l t cpu' ≤ turns a l t cpu ∧
      (system.Throughout (fun u => u.tm.runnable t = some l) cpu es →
        (dispatches cpu es).count (t, l) + turns a l t cpu' = turns a l t cpu) := by
  induction hrun with
  | nil => exact ⟨by simp [dispatches], fun _ => by simp [dispatches]⟩
  | @cons cpu e mid es _ hs _ ih =>
    have Hmid := H.step hs
    have T := TakesTurns.step H hs
    have hfirst := mem_running_of_runnable H ha.head
    have hnext := mem_running_of_runnable Hmid (ha.tail hs).head
    rw [dispatches_cons hs] at hnone ⊢
    rw [List.count_append]
    have hnot : mid.executing = a → cpu.executing = a := by
      intro hmid
      by_contra hne
      refine hnone (mid.executing, mid.tm.currentLevel) (List.mem_append_left _ ?_) hmid
      exact mem_dispatched.mpr ⟨fun h => hne (h.symm.trans hmid), rfl, rfl⟩
    obtain ⟨hle, heq⟩ := ih Hmid (fun d hd => hnone d (List.mem_append_right _ hd)) (ha.tail hs)
    constructor
    · have := count_dispatched_add_turns_le Hmid T hfirst hnext hnot hta
      omega
    · intro hb
      have := count_dispatched_add_turns Hmid T hfirst hnext hnot hta
        (mem_running_of_runnable Hmid (hb.tail hs).head)
      have := heq (hb.tail hs)
      omega

/-- When `a` gets its turn, nobody who stayed at the level waits. -/
theorem turns_eq_zero (H : Inv cpu) (hs : cpu.step e = some cpu') (hne : cpu.executing ≠ a)
    (hexec : cpu'.executing = a) (ha : a ∈ cpu.tm.running l) (ht : t ∈ cpu.tm.running l) :
    turns a l t cpu = 0 := by
  refine if_neg fun haw => ?_
  obtain ⟨hahead, hte⟩ := haw.resolve_left hne
  have T := TakesTurns.step H hs
  have hrot := T.rotated (fun h => hne (h.symm.trans hexec)) l
  have ha' := hrot.mem ha hne.symm
  have hstill := (T.requeued l).mem_ahead ha' hne hahead hte (hrot.mem ht hte) ha
  -- but `a` is in front
  have H' := H.step hs
  have hlevel := (H'.sched.queues.mem_iff l a).mp ha'
  rw [← hexec, H'.sched.runnable_executing] at hlevel
  have hhead := H'.sched.cons_eq
  rw [Option.some.inj hlevel, hexec] at hhead
  rw [hhead, ahead_cons_self] at hstill
  cases hstill

/-- The level of a dispatch is that of the task. -/
theorem count_fst_dispatches (H : Inv cpu) (hrun : system.Run cpu es cpu')
    (hlevel : system.Throughout (fun u => (u.tm.task t).level = l) cpu es) :
    ((dispatches cpu es).map Prod.fst).count t = (dispatches cpu es).count (t, l) := by
  induction hrun with
  | nil => rfl
  | @cons cpu e mid es _ hs _ ih =>
    have Hmid := H.step hs
    rw [dispatches_cons hs, List.map_append, List.count_append, List.count_append,
      ih Hmid (hlevel.tail hs), dispatched]
    split
    · rfl
    · congr 1
      have hcur := (TaskManager.runnable_eq_some.mp Hmid.sched.runnable_executing).2.2
      have hmid := (hlevel.tail hs).head
      by_cases ht : mid.executing = t
      · subst ht
        rw [hmid] at hcur
        simp [hcur]
      · simp [ht]

/-- A task `a` was dispatched, stays runnable at its level, and is dispatched again. In between every other task
that stays runnable at the level is dispatched once, and no task is dispatched there twice. -/
theorem dispatched_in_turn {cpu₁ cpu₂ cpu₃ : Cpu Ctx}
    (h : system.Reachable (init mainCtx idleCtx regs) cpu₁) (hfirst : cpu₁.executing = a)
    (hrun : system.Run cpu₁ es cpu₂) (hnone : ∀ d ∈ dispatches cpu₁ es, d.1 ≠ a)
    (hsecond : cpu₂.step e = some cpu₃) (hbefore : cpu₂.executing ≠ a) (hafter : cpu₃.executing = a)
    (ha : system.Throughout (fun u => u.tm.runnable a = some l) cpu₁ es) :
    (∀ b, b ≠ a → system.Throughout (fun u => u.tm.runnable b = some l) cpu₁ es →
      ((dispatches cpu₁ es).map Prod.fst).count b = 1) ∧
    (∀ w, w ≠ a → system.Throughout (fun u => (u.tm.task w).level = l) cpu₁ es →
      ((dispatches cpu₁ es).map Prod.fst).count w ≤ 1) ∧
    ∀ w, w ≠ a → (dispatches cpu₁ es).count (w, l) ≤ 1 := by
  have H₁ := Inv.reachable h
  have H₂ : Inv cpu₂ := hrun.invariant (fun _ _ _ H hs => H.step hs) H₁
  have hstart : ∀ t, turns a l t cpu₁ = 1 := fun t => if_pos (.inl hfirst)
  have hmost : ∀ w, w ≠ a → (dispatches cpu₁ es).count (w, l) ≤ 1 := by
    intro w hw
    have hle := (count_dispatches H₁ hrun hnone ha hw).1
    rw [hstart] at hle
    exact Nat.le_of_add_right_le hle
  refine ⟨fun b hb hstays => ?_, fun w hw hlevel => ?_, hmost⟩
  · have heq := (count_dispatches H₁ hrun hnone ha hb).2 hstays
    rw [hstart, turns_eq_zero H₂ hsecond hbefore hafter (mem_running_of_runnable H₂ (ha.last hrun))
      (mem_running_of_runnable H₂ (hstays.last hrun))] at heq
    rw [count_fst_dispatches H₁ hrun (hstays.mono fun u hu => (TaskManager.runnable_eq_some.mp hu).2.2)]
    exact heq
  · rw [count_fst_dispatches H₁ hrun hlevel]
    exact hmost w hw

/-- A new task is dispatched at the level of the main task. -/
def twoTasks : Cpu Nat :=
  { init 0 0 0 with tm := ((init 0 0 0 : Cpu Nat).tm.newTask 5).wakeup 3 3 }.switchTask 0

/-- The timer switches from the new task to the main task and back. -/
theorem dispatched_in_turn_twoTasks :
    (∀ b, b ≠ 3 → system.Throughout (fun u => u.tm.runnable b = some 3) twoTasks [.switchTask] →
      ((dispatches twoTasks [.switchTask]).map Prod.fst).count b = 1) ∧
    (∀ w, w ≠ 3 → system.Throughout (fun u => (u.tm.task w).level = 3) twoTasks [.switchTask] →
      ((dispatches twoTasks [.switchTask]).map Prod.fst).count w ≤ 1) ∧
    ∀ w, w ≠ 3 → (dispatches twoTasks [.switchTask]).count (w, 3) ≤ 1 := by
  have hreach : system.Reachable (init 0 0 0 : Cpu Nat) twoTasks :=
    ⟨[.newTask 5, .wakeup 3 3, .switchTask], .cons rfl (.cons rfl (.single rfl))⟩
  have hdispatches : dispatches twoTasks [.switchTask] = [(1, 3)] := by decide +kernel
  have hstep : twoTasks.step .switchTask = some (twoTasks.switchTask twoTasks.regs) := rfl
  have hnone : ∀ d ∈ dispatches twoTasks [.switchTask], d.1 ≠ 3 := by
    rw [hdispatches]
    decide
  refine dispatched_in_turn hreach (by decide +kernel) (.single hstep) hnone (e := .switchTask) rfl
    (by decide +kernel) (by decide +kernel) (.cons (by decide +kernel) hstep (.nil (by decide +kernel)))

end Cpu

end MikanOS
