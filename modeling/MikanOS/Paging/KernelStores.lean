import MikanOS.Paging.Instances
import MikanOS.Task.Message

/-! # Stores of the kernel for an application

Some system calls store into a buffer of the application. `SetupIdentityPageTable` clears `CR0.WP`, so
such a store goes to the page that is mapped, shared or not. -/

namespace MikanOS

open PageMapEntry LinearAddress4Level Memory Store

variable {M T : Nat} {m m' : Machine} {o o' : Nat → Option Place}
  {addr addr' : LinearAddress4Level} {t : Translation} {b : UInt8}

/-! ## What the system calls store -/

/-- The little-endian bytes of a field of `size` bytes at an offset. -/
def fieldBytes (offset size : Nat) (v : Int) : List (Nat × UInt8) :=
  (List.range size).map fun k => (offset + k, UInt8.ofNat (v / 256 ^ k % 256).toNat)

/-- `AppEvent::Type` with `AppEvent::arg`. -/
inductive AppEvent where
  | kQuit
  | kMouseMove (x y dx dy : Int) (buttons : UInt8)
  | kMouseButton (x y press button : Int)
  | kTimerTimeout (timeout : Nat) (value : Int)
  | kKeyPush (modifier keycode ascii : UInt8) (press : Int)

/-- The fields of `AppEvent` that `ReadEvent` sets. -/
def AppEvent.bytes : AppEvent → List (Nat × UInt8)
  | .kQuit => fieldBytes 0 4 0
  | .kMouseMove x y dx dy buttons =>
    fieldBytes 0 4 1 ++ fieldBytes 8 4 x ++ fieldBytes 12 4 y ++ fieldBytes 16 4 dx ++
      fieldBytes 20 4 dy ++ fieldBytes 24 1 buttons.toNat
  | .kMouseButton x y press button =>
    fieldBytes 0 4 2 ++ fieldBytes 8 4 x ++ fieldBytes 12 4 y ++ fieldBytes 16 4 press ++
      fieldBytes 20 4 button
  | .kTimerTimeout timeout value =>
    fieldBytes 0 4 3 ++ fieldBytes 8 8 timeout ++ fieldBytes 16 4 value
  | .kKeyPush modifier keycode ascii press =>
    fieldBytes 0 4 4 ++ fieldBytes 8 1 modifier.toNat ++ fieldBytes 9 1 keycode.toNat ++
      fieldBytes 10 1 ascii.toNat ++ fieldBytes 12 4 press

/-- The switch of `ReadEvent`. -/
def Message.appEvent : Message → Option AppEvent
  | .kKeyPush modifier keycode ascii press =>
    some (if keycode = 20 ∧ modifier &&& 0x11 ≠ 0 then .kQuit
      else .kKeyPush modifier keycode ascii press)
  | .kMouseMove x y dx dy buttons => some (.kMouseMove x y dx dy buttons)
  | .kMouseButton x y press button => some (.kMouseButton x y press button)
  | .kTimerTimeout timeout value => if value < 0 then some (.kTimerTimeout timeout value) else none
  | .kWindowClose _ => some .kQuit
  | _ => none

/-- The loop of `ReadEvent` over the messages that it receives: an event goes to `app_events[i]`, which
has 32 bytes. -/
def readEventLoop (len : Nat) : Nat → List Message → List (Nat × UInt8)
  | _, [] => []
  | i, msg :: msgs =>
    if i < len then
      match msg.appEvent with
      | some e => (e.bytes.map fun field => (32 * i + field.1, field.2)) ++
          readEventLoop len (i + 1) msgs
      | none => readEventLoop len i msgs
    else []

/-- The system calls that store into a buffer of the application, with what they get from elsewhere:
the bytes that `Read` of the descriptor copies, the messages that are received, the size of the file. -/
inductive BufferCall where
  | ReadFile (buf : Nat) (data : List UInt8)
  | ReadEvent (buf len : Nat) (msgs : List Message)
  | MapFile (fileSize size : Nat)

/-- The bytes that a call stores. -/
def BufferCall.stores (call : BufferCall) : List (LinearAddress4Level × UInt8) :=
  let at_ (buf : Nat) (field : Nat × UInt8) := (ofValue ((buf + field.1) % 2 ^ 64), field.2)
  match call with
  | .ReadFile buf data => data.zipIdx.map fun byte => at_ buf (byte.2, byte.1)
  | .ReadEvent buf len msgs =>
    if buf < 0x8000000000000000 then [] else (readEventLoop len 0 msgs).map (at_ buf)
  | .MapFile fileSize size => (fieldBytes 0 8 size).map (at_ fileSize)

/-- Bytes that the kernel stores one after the other. -/
def Machine.storeBytes (m : Machine) : List (LinearAddress4Level × UInt8) → Option Machine
  | [] => some m
  | (addr, b) :: stores => (m.supervisorStore addr b).toOption.bind fun m => m.storeBytes stores

/-- The store goes to a page that the address space has of its own, or leaves the byte as it is. -/
def Machine.StoresOwn (m : Machine) (addr : LinearAddress4Level) (b : UInt8) : Prop :=
  ∀ t, m.translate addr = some t → t.writable = true ∨ m.mem.byte t.frame addr.offset = b

/-! ## Stores to pages of one's own -/

/-- Such a store is seen at its address only, and the others are as much one's own as before it. -/
theorem supervisorStore_spec (H : WellOwned M (m.store o)) (hroot : o T = some (T, []))
    (hT : T ≠ M) (hcr3 : m.cr3 = T) (haddr : 256 ≤ (addr.part 4).val) (hcanon : addr.Canonical)
    (hown : m.StoresOwn addr b) (h : m.supervisorStore addr b = .ok m') :
    Builds M T m o m' o ∧ ∀ addr' : LinearAddress4Level, 256 ≤ (addr'.part 4).val →
      (∀ b', m.StoresOwn addr' b' → m'.StoresOwn addr' b') ∧
      (addr'.Canonical → view m'.mem addr' T =
        if addr' = addr then some b else view m.mem addr' T) := by
  rw [Machine.supervisorStore, if_pos hcanon] at h
  split at h
  · cases h
  · rename_i t hw
    cases h
    have hw' : walk m.mem addr 4 T = some t := by rw [← hcr3]; exact hw
    rcases hown t hw with hwritable | hsame
    · obtain ⟨hbuilds, hview⟩ := setByteAt_spec H hroot haddr hcanon hw' hwritable b
      refine ⟨hbuilds, fun addr' haddr' => ⟨fun b' hown' t' ht' => ?_, (hview addr' haddr').2⟩⟩
      simp only [Machine.translate, hcr3] at ht'
      rw [(hview addr' haddr').1] at ht'
      rcases hown' t' (by rw [Machine.translate, hcr3]; exact ht') with hw'' | hsame'
      · exact .inl hw''
      · cases hshared : t'.writable with
        | true => exact .inl rfl
        | false =>
          -- a shared page is not the one that is stored to
          refine .inr ?_
          rw [byte_setByteAt, if_neg]
          · exact hsame'
          · rintro ⟨hframe, -⟩
            obtain ⟨-, howner⟩ := H.walk_owner hroot rfl (fun _ => haddr) hw'
            obtain ⟨-, howner'⟩ := H.walk_owner hroot rfl (fun _ => haddr') ht'
            rw [hwritable, if_pos rfl] at howner
            rw [hshared, hframe, howner] at howner'
            exact hT (Prod.mk.inj (Option.some.inj howner')).1
    · rw [setByteAt_eq_self _ hsame]
      refine ⟨.refl, fun addr' _ => ⟨fun _ h => h, fun _ => ?_⟩⟩
      split
      · rename_i heq
        rw [heq, view, hw', Option.map_some, hsame]
      · rfl

namespace Instances

/-- The instances run and make system calls. -/
inductive Call where
  | app (e : Event)
  | syscall (pml4 : Nat) (call : BufferCall)

/-- A system call with its buffer in the image. -/
def callStep (M kernelPML4 : Nat) (task : Nat → PagingTask) (s : State) : Call → Option State
  | .app e => step M kernelPML4 task s e
  | .syscall pml4 call =>
    if pml4 ∈ s.running ∧ ∀ st ∈ call.stores, InImage M s.m.mem st.1 then
      ((s.on pml4).storeBytes call.stores).map fun m => { s with m }
    else none

def callSystem (M kernelPML4 : Nat) (task : Nat → PagingTask) : Transition.System State Call :=
  ⟨callStep M kernelPML4 task⟩

def Call.stores : Call → List Stored
  | .app e => e.stores
  | .syscall pml4 call => call.stores.map fun st => ⟨pml4, st.1, st.2⟩

/-- All bytes that a system call stores go to pages that the instance has of its own, or are there
already. -/
def StoresOwnPages (s : State) : Call → Prop
  | .app _ => True
  | .syscall pml4 call => ∀ st ∈ call.stores, (s.on pml4).StoresOwn st.1 st.2

variable {kernelPML4 : Nat} {task : Nat → PagingTask} {m₀ : Machine} {o₀ : Nat → Option Place}
  {stores : List Stored} {s s' : State} {call : Call}

/-- The stores of a system call, one after the other. -/
theorem Invariant.storeBytes {pml4 : Nat} {bytes : List (LinearAddress4Level × UInt8)}
    (I : Invariant M m₀ o₀ stores s o) (hT : pml4 ∈ s.running)
    (himage : ∀ st ∈ bytes, InImage M m₀.mem st.1)
    (hown : ∀ st ∈ bytes, (s.on pml4).StoresOwn st.1 st.2)
    (h : (s.on pml4).storeBytes bytes = some m') :
    Invariant M m₀ o₀ (stores ++ bytes.map fun st => ⟨pml4, st.1, st.2⟩) ⟨m', s.running⟩ o := by
  induction bytes generalizing stores s with
  | nil =>
    cases h
    rw [List.map_nil, List.append_nil]
    exact ⟨I.wellOwned, I.rangeEnd, I.cached, I.root, I.view, I.unborn⟩
  | cons st bytes ih =>
    obtain ⟨addr, b⟩ := st
    obtain ⟨m₁, hstore, h⟩ := Option.bind_eq_some_iff.mp h
    obtain ⟨hTM, hroot⟩ := I.root pml4 hT
    have hok : (s.on pml4).supervisorStore addr b = .ok m₁ := by
      cases hs : (s.on pml4).supervisorStore addr b with
      | error e =>
        rw [hs] at hstore
        cases hstore
      | ok m =>
        rw [hs] at hstore
        cases hstore
        rfl
    have haddr := himage _ List.mem_cons_self
    obtain ⟨hbuilds, hview⟩ := supervisorStore_spec (m := s.on pml4) I.wellOwned hroot hTM rfl
      haddr.2.1 haddr.1 (hown _ List.mem_cons_self) hok
    have I₁ := I.put hT hbuilds fun addr' hcanon' haddr' =>
      (hview addr' haddr').2 hcanon'
    have hcr3 : m₁.cr3 = pml4 := hbuilds.cr3
    have hon : State.on ⟨m₁, s.running⟩ pml4 = m₁ := by rw [State.on, ← hcr3]
    have hrest := ih I₁ hT (fun st hst => himage st (List.mem_cons_of_mem _ hst))
      (fun st hst => by
        rw [hon]
        exact (hview st.1 (himage st (List.mem_cons_of_mem _ hst)).2.1).1 st.2
          (hown st (List.mem_cons_of_mem _ hst)))
      (by rw [hon]; exact h)
    rw [List.map_cons, List.append_cons]
    exact hrest

section

variable (H₀ : WellOwned M (m₀.store o₀)) (hM : o₀ M = some (M, []))

include H₀ hM

theorem Invariant.callStep (I : Invariant M m₀ o₀ stores s o) (hown : StoresOwnPages s call)
    (h : Instances.callStep M kernelPML4 task s call = some s') :
    ∃ o', Invariant M m₀ o₀ (stores ++ call.stores) s' o' := by
  cases call with
  | app e =>
    have hstep : Instances.step M kernelPML4 task s e = some s' := h
    exact I.step H₀ hM hstep
  | syscall pml4 call =>
    simp only [Instances.callStep] at h
    split at h
    · rename_i hguard
      obtain ⟨m', hstore, h⟩ := Option.map_eq_some_iff.mp h
      cases h
      exact ⟨o, I.storeBytes hguard.1 (fun st hst => (I.inImage H₀ hM).mp (hguard.2 st hst)) hown
        hstore⟩
    · cases h

/-- Where the kernel stores to pages that are not shared any more, every instance loads its own last
store or else the byte of the image, and the cached tree stays as it is. -/
theorem callSystem_load_eq_lastStore (hend : m₀.memoryManager.rangeEnd ≤ 2 ^ 40) {calls : List Call}
    (h : (callSystem M kernelPML4 task).Run ⟨m₀, []⟩ calls s)
    (hown : ∀ pre call post t, calls = pre ++ call :: post →
      (callSystem M kernelPML4 task).Run ⟨m₀, []⟩ pre t → StoresOwnPages t call) :
    (∀ T ∈ s.running, ∀ addr, InImage M m₀.mem addr →
      ∃ b, MikanOS.view m₀.mem addr M = some b ∧
        (s.on T).userLoad addr = .ok ((lastStore (calls.flatMap Call.stores) T addr).getD b)) ∧
    ∀ f p, o₀ f = some (M, p) → s.m.mem f = m₀.mem f := by
  have hrun := h.invariant_history
    (I := fun calls s => ∃ o, Invariant M m₀ o₀ (calls.flatMap Call.stores) s o)
    (fun calls t call t' hI hown ht => by
      obtain ⟨o, I⟩ := hI
      rw [List.flatMap_append, List.flatMap_singleton]
      exact I.callStep H₀ hM hown
        (show Instances.callStep M kernelPML4 task t call = some t' from ht))
    ⟨o₀, .init H₀ hend⟩ hown
  obtain ⟨o, I⟩ := hrun
  exact ⟨fun T hT addr haddr => I.userLoad hT haddr, fun f p hf => (I.cached f p hf).2⟩

end

/-- An instance stores to its page before it reads two bytes of a file into it. -/
theorem callSystem_load_eq_lastStore_image : ∃ s, (callSystem 1 0 fun _ => noTask).Run
    ⟨imageMachine, []⟩ [.app .loadApp, .app .loadApp, .app (.store 6 (imageAddr 2) 1),
      .syscall 6 (.ReadFile 0xffff800000000000 [7, 8])] s ∧
    (s.on 6).userLoad (imageAddr 1) = .ok 8 ∧ (s.on 10).userLoad (imageAddr 0) = .ok 0x41 := by
  have hexec : ((callSystem 1 0 fun _ => noTask).exec ⟨imageMachine, []⟩
      [.app .loadApp, .app .loadApp, .app (.store 6 (imageAddr 2) 1),
        .syscall 6 (.ReadFile 0xffff800000000000 [7, 8])]).map State.running = some [10, 6] := by
    decide +kernel
  have hbefore : ((callSystem 1 0 fun _ => noTask).exec ⟨imageMachine, []⟩
      [.app .loadApp, .app .loadApp, .app (.store 6 (imageAddr 2) 1)]).map (fun s =>
        ((s.on 6).translate (imageAddr 0), (s.on 6).translate (imageAddr 1))) =
      some (some ⟨14, true, true⟩, some ⟨14, true, true⟩) := by decide +kernel
  obtain ⟨s, hs, hrunning⟩ := Option.map_eq_some_iff.mp hexec
  have hrun := Transition.System.run_of_exec hs
  refine ⟨s, hrun, ?_⟩
  have hload := (callSystem_load_eq_lastStore imageMachine_wellOwned rfl (by decide) hrun
    fun pre call post t hcalls ht => ?_).1
  · have hview : MikanOS.view imageMachine.mem (imageAddr 0) 1 = some 0x41 := by decide +kernel
    refine ⟨?_, ?_⟩
    · obtain ⟨b, hb, h⟩ := hload 6 (by simp [hrunning]) (imageAddr 1) (by decide +kernel)
      exact h
    · obtain ⟨b, hb, h⟩ := hload 10 (by simp [hrunning]) (imageAddr 0) (by decide +kernel)
      rw [hview] at hb
      cases hb
      exact h
  · cases call with
    | app e => trivial
    | syscall pml4 call =>
      obtain _ | ⟨c₁, _ | ⟨c₂, _ | ⟨c₃, _ | ⟨c₄, pre⟩⟩⟩⟩ := pre
      all_goals simp only [List.nil_append, List.cons_append, List.cons.injEq, reduceCtorEq, false_and,
        and_false, List.nil_eq, List.append_eq_nil_iff] at hcalls
      obtain ⟨rfl, rfl, rfl, hcall, -⟩ := hcalls
      cases hcall
      rw [Transition.System.exec_of_run ht, Option.map_some, Option.some.injEq, Prod.mk.injEq]
        at hbefore
      have hstores : (BufferCall.ReadFile 0xffff800000000000 [7, 8]).stores =
          [(imageAddr 0, 7), (imageAddr 1, 8)] := by decide +kernel
      intro st hst t' ht'
      rw [hstores] at hst
      rcases List.mem_pair.mp hst with rfl | rfl
      · rw [hbefore.1] at ht'
        cases ht'
        exact .inl rfl
      · rw [hbefore.2] at ht'
        cases ht'
        exact .inl rfl

/-- Without that store the bytes go to the page that the instances share. -/
theorem not_callSystem_load_eq_lastStore :
    ∃ s, (callSystem 1 0 fun _ => noTask).Run ⟨imageMachine, []⟩ [.app .loadApp, .app .loadApp,
      .syscall 6 (.ReadFile 0xffff800000000000 [7, 8])] s ∧
    (s.on 10).userLoad (imageAddr 0) = .ok 7 ∧
    MikanOS.view imageMachine.mem (imageAddr 0) 1 = some 0x41 ∧
    s.m.mem 5 ≠ imageMachine.mem 5 := by
  have hexec : ((callSystem 1 0 fun _ => noTask).exec ⟨imageMachine, []⟩ [.app .loadApp,
      .app .loadApp, .syscall 6 (.ReadFile 0xffff800000000000 [7, 8])]).map
        (fun s => ((s.on 10).userLoad (imageAddr 0), s.m.mem 5 0)) = some (.ok 7, 0x807) := by
    decide +kernel
  obtain ⟨s, hs, h⟩ := Option.map_eq_some_iff.mp hexec
  obtain ⟨hload, hmem⟩ := Prod.mk.inj h
  refine ⟨s, Transition.System.run_of_exec hs, hload, by decide +kernel, fun heq => ?_⟩
  rw [heq] at hmem
  exact absurd hmem (by decide)

end Instances

end MikanOS
