import MikanOS.Library.Transition
import MikanOS.Terminal.PipeDescriptor

/-! # A pipe is a byte stream

One task writes, one task reads, and messages of other kinds reach the reader in between. The
turns of the loops of `Write` and `Read` interleave freely. -/

namespace MikanOS.PipeDescriptor

open Bytes

variable {Ctx : Type}

/-- The pipe with its two ends. `written` are the bytes given to `Write` so far, `sent` those of
them that are in messages; `reads` lists the finished `Read` calls, each with its `len` and the
bytes that it put into the buffer. -/
structure Stream (Ctx : Type) where
  fd : PipeDescriptor
  task : Task Ctx
  writer : Option WriteLoop
  reader : Option ((Nat → UInt8) × Nat)
  finished : Bool
  written : List UInt8
  sent : List UInt8
  reads : List (Nat × List UInt8)

namespace Stream

/-- The pipe of `Terminal::ExecuteLine`, whose reading task has no messages yet. -/
def init (task : Task Ctx) (data : Nat → UInt8) : Stream Ctx where
  fd := { data }
  task := { task with msgs := [] }
  writer := none
  reader := none
  finished := false
  written := []
  sent := []
  reads := []

/-- All bytes that `Read` returned. -/
def returned (s : Stream Ctx) : List UInt8 := s.reads.flatMap Prod.snd

inductive Event where
  | write (buf : Nat → UInt8) (len : Nat)
  | writeLoop
  | finishWrite
  | sendMessage (msg : Message)
  | read (buf : Nat → UInt8) (len : Nat)
  | readLoop

/-- A `Read` call returns. -/
def readReturns (s : Stream Ctx) (len : Nat) (r : ReadResult) : Stream Ctx :=
  { s with fd := r.fd, reader := none, reads := s.reads ++ [(len, slice r.buf 0 r.copyBytes)] }

/-- One event. `FinishWrite` is the last call of the writer, and each end makes one call at a
time. -/
def step (s : Stream Ctx) : Event → Option (Stream Ctx)
  | .write buf len =>
    if s.writer.isNone ∧ s.finished = false then
      some { s with writer := some (write buf len), written := s.written ++ slice buf 0 len }
    else none
  | .writeLoop => s.writer.map fun w =>
      match writeLoop s.task w with
      | some (w', task) => { s with
          writer := some w'
          task
          sent := s.sent ++ slice w.buf w.sentBytes (w'.sentBytes - w.sentBytes) }
      | none => { s with writer := none }
  | .finishWrite =>
    if s.writer.isNone ∧ s.finished = false then
      some { s with task := finishWrite s.task, finished := true }
    else none
  | .sendMessage msg =>
    if msg.isPipe then none else some { s with task := s.task.sendMessage msg }
  | .read buf len =>
    if s.reader.isNone then
      match s.fd.readCarried buf len with
      | some r => some (s.readReturns len r)
      | none => some { s with reader := some (buf, len) }
    else none
  | .readLoop => s.reader.map fun (buf, len) =>
      match s.fd.readLoop s.task buf len with
      | (some r, task) => { s with task }.readReturns len r
      | (none, task) => { s with task }

def system (Ctx : Type) : Transition.System (Stream Ctx) Event := ⟨step⟩

/-! ## The invariant -/

/-- The bytes that a message carries for the pipe. -/
def pipeBytes : Message → List UInt8
  | .kPipe data len => slice data 0 len.toNat
  | _ => []

/-- The message that ends the stream. -/
def isEof : Message → Bool
  | .kPipe _ len => len = 0
  | _ => false

/-- The bytes of the `Write` call in progress that it has yet to send. -/
def unsent (s : Stream Ctx) : List UInt8 :=
  match s.writer with
  | some w => slice w.buf w.sentBytes (w.len - w.sentBytes)
  | none => []

/-- What is sent but not returned lies in order in the descriptor and in the messages, and the
end-of-stream message is the last one of the pipe. -/
structure Inv (s : Stream Ctx) : Prop where
  written : s.written = s.sent ++ s.unsent
  sent : s.sent = s.returned ++ (slice s.fd.data 0 s.fd.len ++ s.task.msgs.flatMap pipeBytes)
  eof_last : s.task.msgs.Pairwise fun a b => isEof a = true → b.isPipe = false
  eof : ∀ m ∈ s.task.msgs, isEof m = true → s.finished = true ∧ s.fd.closed = false
  finished : s.finished = true → s.writer = none
  closed : s.fd.closed = true →
    s.finished = true ∧ s.fd.len = 0 ∧ ∀ m ∈ s.task.msgs, m.isPipe = false
  reader : s.reader.isSome = true → s.fd.len = 0 ∧ s.fd.closed = false
  reads : ∀ pre len post, s.reads = pre ++ (len, []) :: post → 0 < len →
    s.fd.closed = true ∧ ∀ r ∈ post, r.2 = []

theorem pipeBytes_of_not_isPipe (h : m.isPipe = false) : pipeBytes m = [] := by
  cases m <;> first | rfl | cases h

theorem isEof_of_not_isPipe (h : m.isPipe = false) : isEof m = false := by
  cases m <;> first | rfl | cases h

theorem flatMap_pipeBytes_eq_nil {msgs : List Message} (h : ∀ m ∈ msgs, m.isPipe = false) :
    msgs.flatMap pipeBytes = [] :=
  List.flatMap_eq_nil_iff.mpr fun m hm => pipeBytes_of_not_isPipe (h m hm)

variable {s s' : Stream Ctx} {buf data : Nat → UInt8} {len : Nat}

theorem Inv.init (task : Task Ctx) (data : Nat → UInt8) : Inv (init task data) where
  written := rfl
  sent := rfl
  eof_last := .nil
  eof := fun _ h => absurd h List.not_mem_nil
  finished := fun _ => rfl
  closed := fun h => absurd h Bool.false_ne_true
  reader := fun h => absurd h Bool.false_ne_true
  reads := fun pre len post h => by simp [Stream.init] at h

/-- The list of reads grows by one. -/
theorem reads_append {reads pre post : List (Nat × List UInt8)} (h : reads ++ [r] = pre ++ x :: post) :
    (reads = pre ∧ r = x ∧ post = []) ∨ ∃ post', post = post' ++ [r] ∧ reads = pre ++ x :: post' := by
  rcases List.eq_nil_or_concat post with rfl | ⟨post', y, rfl⟩
  · obtain ⟨h1, h2⟩ := List.append_inj' h rfl
    exact .inl ⟨h1, by simpa using h2, rfl⟩
  · have h' : reads ++ [r] = (pre ++ x :: post') ++ [y] := by simpa using h
    obtain ⟨h1, h2⟩ := List.append_inj' h' rfl
    obtain rfl : r = y := by simpa using h2
    exact .inr ⟨post', by simp, h1⟩

namespace Inv

/-- A message that is appended to the queue. -/
private theorem eof_last_append (H : Inv s)
    (h : s.finished = false ∨ msg.isPipe = false) :
    (s.task.msgs ++ [msg]).Pairwise fun a b => isEof a = true → b.isPipe = false := by
  refine List.pairwise_append.mpr ⟨H.eof_last, List.pairwise_singleton _ _, ?_⟩
  intro m hm b hb heof
  rw [List.mem_singleton.mp hb]
  rcases h with h | h
  · rw [(H.eof m hm heof).1] at h
    cases h
  · exact h

theorem writeLoop {task : Task Ctx} (H : Inv s) (hw : s.writer = some w)
    (h : PipeDescriptor.writeLoop s.task w = some (w', task)) :
    Inv { s with
      writer := some w'
      task
      sent := s.sent ++ slice w.buf w.sentBytes (w'.sentBytes - w.sentBytes) } := by
  have hfin : s.finished = false := by
    cases hf : s.finished with
    | false => rfl
    | true => rw [H.finished hf] at hw; cases hw
  simp only [PipeDescriptor.writeLoop, Option.ite_none_right_eq_some, Option.some.injEq,
    Prod.mk.injEq] at h
  obtain ⟨hlt, rfl, rfl⟩ := h
  generalize hk : UInt8.ofNat (min (w.len - w.sentBytes) kPipeData) = k
  have hkn : k.toNat = min (w.len - w.sentBytes) kPipeData := by
    have hle : min (w.len - w.sentBytes) kPipeData ≤ 16 := Nat.min_le_right ..
    rw [← hk, UInt8.toNat_ofNat_of_lt' (Nat.lt_of_le_of_lt hle (by decide))]
  have hk0 : 0 < k.toNat := by
    rw [hkn]
    exact Nat.lt_min.mpr ⟨by omega, by decide⟩
  have hkle : k.toNat ≤ w.len - w.sentBytes := hkn ▸ Nat.min_le_left ..
  have hbytes : slice (memcpy w.data 0 w.buf w.sentBytes k.toNat) 0 k.toNat =
      slice w.buf w.sentBytes k.toNat := slice_memcpy_self ..
  refine ⟨?_, ?_, ?_, ?_, ?_, ?_, H.reader, H.reads⟩
  · have hsplit : w.len - w.sentBytes = k.toNat + (w.len - (w.sentBytes + k.toNat)) := by omega
    have hwritten := H.written
    simp only [unsent, hw] at hwritten
    rw [hsplit, slice_add] at hwritten
    simpa [unsent] using hwritten
  · simp [H.sent, Task.sendMessage, pipeBytes, hbytes, returned]
  · exact H.eof_last_append (.inl hfin)
  · intro m hm heof
    rcases List.mem_append.mp hm with hm | hm
    · exact H.eof m hm heof
    · rw [List.mem_singleton.mp hm] at heof
      simp only [isEof, decide_eq_true_eq] at heof
      rw [heof] at hk0
      exact absurd hk0 (Nat.lt_irrefl 0)
  · intro hf
    rw [hfin] at hf
    cases hf
  · intro hc
    rw [(H.closed hc).1] at hfin
    cases hfin

theorem write (H : Inv s) (hw : s.writer = none) (hfin : s.finished = false)
    (buf : Nat → UInt8) (len : Nat) :
    Inv { s with
      writer := some (PipeDescriptor.write buf len)
      written := s.written ++ slice buf 0 len } where
  written := by
    have hwritten := H.written
    simp only [unsent, hw, List.append_nil] at hwritten
    rw [hwritten]
    rfl
  sent := H.sent
  eof_last := H.eof_last
  eof := H.eof
  finished := fun hf => by
    rw [hfin] at hf
    cases hf
  closed := H.closed
  reader := H.reader
  reads := H.reads

theorem writeLoop_end (H : Inv s) (hw : s.writer = some w)
    (h : PipeDescriptor.writeLoop s.task w = none) : Inv { s with writer := none } where
  written := by
    have hwritten := H.written
    have hend : w.len - w.sentBytes = 0 := by
      simp only [PipeDescriptor.writeLoop, ite_eq_right_iff] at h
      by_contra hne
      cases h (by omega)
    simpa only [unsent, hw, hend, slice_zero] using hwritten
  sent := H.sent
  eof_last := H.eof_last
  eof := H.eof
  finished := fun _ => rfl
  closed := H.closed
  reader := H.reader
  reads := H.reads

theorem finishWrite (H : Inv s) (hw : s.writer = none) (hfin : s.finished = false) :
    Inv { s with task := PipeDescriptor.finishWrite s.task, finished := true } where
  written := H.written
  sent := by simp [H.sent, PipeDescriptor.finishWrite, Task.sendMessage, pipeBytes, returned]
  eof_last := H.eof_last_append (.inl hfin)
  eof := by
    intro m hm heof
    refine ⟨rfl, ?_⟩
    cases hc : s.fd.closed with
    | false => rfl
    | true =>
      rw [(H.closed hc).1] at hfin
      cases hfin
  finished := fun _ => hw
  closed := by
    intro hc
    rw [(H.closed hc).1] at hfin
    cases hfin
  reader := H.reader
  reads := H.reads

theorem sendMessage (H : Inv s) (hmsg : msg.isPipe = false) :
    Inv { s with task := s.task.sendMessage msg } where
  written := H.written
  sent := by simp [H.sent, Task.sendMessage, pipeBytes_of_not_isPipe hmsg, returned]
  eof_last := H.eof_last_append (.inr hmsg)
  eof := by
    intro m hm heof
    rcases List.mem_append.mp hm with hm | hm
    · exact H.eof m hm heof
    · rw [List.mem_singleton.mp hm, isEof_of_not_isPipe hmsg] at heof
      cases heof
  finished := H.finished
  closed := by
    intro hc
    obtain ⟨hf, hlen, hall⟩ := H.closed hc
    refine ⟨hf, hlen, fun m hm => ?_⟩
    rcases List.mem_append.mp hm with hm | hm
    · exact hall m hm
    · exact (List.mem_singleton.mp hm) ▸ hmsg
  reader := H.reader
  reads := H.reads

/-- The log of reads after a call that returns nothing only from a closed pipe. -/
private theorem reads_readReturns (H : Inv s) {bytes : List UInt8} {closed : Bool}
    (hclosed : s.fd.closed = true → closed = true ∧ bytes = [])
    (hnil : 0 < len → bytes = [] → closed = true) :
    ∀ pre len' post, s.reads ++ [(len, bytes)] = pre ++ (len', []) :: post → 0 < len' →
      closed = true ∧ ∀ r ∈ post, r.2 = [] := by
  intro pre len' post h hlen
  rcases reads_append h with ⟨-, heq, rfl⟩ | ⟨post', rfl, hreads⟩
  · cases heq
    exact ⟨hnil hlen rfl, fun r hr => absurd hr List.not_mem_nil⟩
  · obtain ⟨hc, hpost⟩ := H.reads pre len' post' hreads hlen
    obtain ⟨hc', hbytes⟩ := hclosed hc
    refine ⟨hc', fun r hr => ?_⟩
    rcases List.mem_append.mp hr with hr | hr
    · exact hpost r hr
    · rw [List.mem_singleton.mp hr]
      exact hbytes

theorem readCarried (H : Inv s) (h : s.fd.readCarried buf len = some r) :
    Inv (s.readReturns len r) := by
  simp only [PipeDescriptor.readCarried] at h
  split at h
  · rename_i hlen
    cases h
    -- a prefix of the carried bytes is returned, the others move to the front
    have hclosed : s.fd.closed = false := by
      cases hc : s.fd.closed with
      | false => rfl
      | true =>
        rw [(H.closed hc).2.1] at hlen
        exact absurd hlen (Nat.lt_irrefl 0)
    have hsplit : s.fd.len = min s.fd.len len + (s.fd.len - min s.fd.len len) := by omega
    have hcarry : slice s.fd.data 0 s.fd.len = slice s.fd.data 0 (min s.fd.len len) ++
        slice s.fd.data (min s.fd.len len) (s.fd.len - min s.fd.len len) := by
      rw [hsplit, slice_add, ← hsplit, Nat.zero_add]
    refine ⟨H.written, ?_, H.eof_last, H.eof, H.finished, ?_, ?_, ?_⟩
    · have hsent := H.sent
      rw [hcarry] at hsent
      simpa [readReturns, returned, slice_memcpy_self] using hsent
    · intro hc
      rw [hclosed] at hc
      cases hc
    · intro hr
      cases hr
    · refine H.reads_readReturns (fun hc => ?_) fun h0 hnil => ?_
      · rw [hclosed] at hc
        cases hc
      · have hmin : min s.fd.len len = 0 := slice_eq_nil.mp hnil
        have hlen : 0 < s.fd.len := hlen
        omega
  · split at h
    · rename_i hc
      cases h
      refine ⟨H.written, ?_, H.eof_last, H.eof, H.finished, H.closed, ?_, ?_⟩
      · simpa [readReturns, returned] using H.sent
      · intro hr
        cases hr
      · exact H.reads_readReturns (fun _ => ⟨hc, rfl⟩) fun _ _ => hc
    · cases h

theorem read (H : Inv s) (h : s.fd.readCarried buf len = none) :
    Inv { s with reader := some (buf, len) } where
  written := H.written
  sent := H.sent
  eof_last := H.eof_last
  eof := H.eof
  finished := H.finished
  closed := H.closed
  reader := by
    intro _
    simp only [PipeDescriptor.readCarried] at h
    split at h
    · cases h
    · rename_i hlen
      split at h
      · cases h
      · rename_i hc
        exact ⟨Nat.eq_zero_of_not_pos hlen, by simpa using hc⟩
  reads := H.reads

/-- A message is taken from the queue. -/
private theorem receive (H : Inv s) (hmsgs : s.task.msgs = m :: msgs) :
    (msgs.Pairwise fun a b => isEof a = true → b.isPipe = false) ∧
    (∀ a ∈ msgs, isEof a = true → s.finished = true ∧ s.fd.closed = false) ∧
    (isEof m = true → s.finished = true ∧ s.fd.closed = false ∧
      ∀ a ∈ msgs, a.isPipe = false) := by
  have hlast := H.eof_last
  have heof := H.eof
  rw [hmsgs] at hlast heof
  obtain ⟨hm, hlast⟩ := List.pairwise_cons.mp hlast
  refine ⟨hlast, fun a ha => heof a (List.mem_cons_of_mem _ ha), fun h => ?_⟩
  obtain ⟨hfin, hclosed⟩ := heof m List.mem_cons_self h
  exact ⟨hfin, hclosed, fun a ha => hm a ha h⟩

theorem readLoop_skip (H : Inv s) (hreader : s.reader.isSome = true)
    (hmsgs : s.task.msgs = m :: msgs) (hm : m.isPipe = false) :
    Inv { s with task := { s.task with msgs } } := by
  obtain ⟨hlast, heof, -⟩ := H.receive hmsgs
  refine ⟨H.written, ?_, hlast, heof, H.finished, fun hc => ?_, H.reader, H.reads⟩
  · simpa [hmsgs, pipeBytes_of_not_isPipe hm, returned] using H.sent
  · rw [(H.reader hreader).2] at hc
    cases hc

theorem readLoop_eof (H : Inv s) (hreader : s.reader.isSome = true)
    (hmsgs : s.task.msgs = .kPipe data 0 :: msgs) :
    Inv ({ s with task := { s.task with msgs } }.readReturns len
      ⟨0, buf, { s.fd with closed := true }⟩) := by
  obtain ⟨hlast, heof, hend⟩ := H.receive hmsgs
  obtain ⟨hfin, hclosed, hall⟩ := hend rfl
  refine ⟨H.written, ?_, hlast, fun m hm he => ?_, H.finished, ?_, ?_, ?_⟩
  · simpa [readReturns, returned, hmsgs, pipeBytes] using H.sent
  · rw [isEof_of_not_isPipe (hall m hm)] at he
    cases he
  · exact fun _ => ⟨hfin, (H.reader hreader).1, hall⟩
  · intro hr
    cases hr
  · exact H.reads_readReturns (fun _ => ⟨rfl, rfl⟩) fun _ _ => rfl

theorem readLoop_pipe (H : Inv s) (hreader : s.reader.isSome = true)
    (hmsgs : s.task.msgs = .kPipe data msgLen :: msgs) (hlen : msgLen ≠ 0) :
    let copyBytes := min msgLen.toNat len
    let rest := msgLen.toNat - copyBytes
    Inv ({ s with task := { s.task with msgs } }.readReturns len
      ⟨copyBytes, memcpy buf 0 data 0 copyBytes,
        { s.fd with len := rest, data := memcpy s.fd.data 0 data copyBytes rest }⟩) := by
  intro copyBytes rest
  obtain ⟨hlast, heof, -⟩ := H.receive hmsgs
  obtain ⟨hcarry, hclosed⟩ := H.reader hreader
  have hpos : 0 < msgLen.toNat := by
    refine Nat.pos_of_ne_zero fun h => hlen ?_
    exact UInt8.toNat_inj.mp h
  have hsplit : msgLen.toNat = copyBytes + rest := by omega
  have hbytes : slice data 0 msgLen.toNat = slice data 0 copyBytes ++ slice data copyBytes rest := by
    rw [hsplit, slice_add, Nat.zero_add]
  refine ⟨H.written, ?_, hlast, heof, H.finished, ?_, ?_, ?_⟩
  · have hsent := H.sent
    simp only [hmsgs, hcarry, List.flatMap_cons, pipeBytes, hbytes, slice_zero] at hsent
    simpa [readReturns, returned, slice_memcpy_self] using hsent
  · intro hc
    cases hclosed.symm.trans hc
  · intro hr
    cases hr
  · refine H.reads_readReturns (fun hc => ?_) fun h0 hnil => ?_
    · cases hclosed.symm.trans hc
    · have hmin : min msgLen.toNat len = 0 := slice_eq_nil.mp hnil
      omega

/-- One turn of the loop of `Read`, by the message that it takes. -/
theorem readLoop (H : Inv s) (hreader : s.reader = some (buf, len)) :
    Inv (match s.fd.readLoop s.task buf len with
      | (some r, task) => { s with task }.readReturns len r
      | (none, task) => { s with task }) := by
  have hsome : s.reader.isSome = true := by rw [hreader]; rfl
  cases hmsgs : s.task.msgs with
  | nil =>
    simp only [PipeDescriptor.readLoop, Task.receiveMessage, hmsgs]
    exact H
  | cons m msgs =>
    cases m with
    | kPipe data msgLen =>
      simp only [PipeDescriptor.readLoop, Task.receiveMessage, hmsgs]
      by_cases hlen : msgLen = 0
      · subst hlen
        exact H.readLoop_eof hsome hmsgs
      · simp only [if_neg hlen]
        exact H.readLoop_pipe hsome hmsgs hlen
    | _ =>
      simp only [PipeDescriptor.readLoop, Task.receiveMessage, hmsgs]
      exact H.readLoop_skip hsome hmsgs rfl

/-- Every event keeps the invariant. -/
theorem step (H : Inv s) (h : s.step e = some s') : Inv s' := by
  cases e with
  | write buf len =>
    simp only [Stream.step, Option.ite_none_right_eq_some, Option.some.injEq] at h
    obtain ⟨⟨hw, hfin⟩, rfl⟩ := h
    exact H.write (by simpa using hw) hfin buf len
  | writeLoop =>
    obtain ⟨w, hw, rfl⟩ := Option.map_eq_some_iff.mp h
    cases hloop : PipeDescriptor.writeLoop s.task w with
    | none => exact H.writeLoop_end hw hloop
    | some r => exact H.writeLoop hw hloop
  | finishWrite =>
    simp only [Stream.step, Option.ite_none_right_eq_some, Option.some.injEq] at h
    obtain ⟨⟨hw, hfin⟩, rfl⟩ := h
    exact H.finishWrite (by simpa using hw) hfin
  | sendMessage msg =>
    simp only [Stream.step, Option.ite_none_left_eq_some, Option.some.injEq] at h
    obtain ⟨hmsg, rfl⟩ := h
    exact H.sendMessage (by simpa using hmsg)
  | read buf len =>
    simp only [Stream.step, Option.ite_none_right_eq_some] at h
    obtain ⟨-, h⟩ := h
    cases hcarried : s.fd.readCarried buf len with
    | some r =>
      simp only [hcarried, Option.some.injEq] at h
      exact h ▸ H.readCarried hcarried
    | none =>
      simp only [hcarried, Option.some.injEq] at h
      exact h ▸ H.read hcarried
  | readLoop =>
    obtain ⟨⟨buf, len⟩, hreader, rfl⟩ := Option.map_eq_some_iff.mp h
    exact H.readLoop hreader

theorem reachable {task : Task Ctx}
    (h : (system Ctx).Reachable (Stream.init task data) s) : Inv s :=
  h.invariant (fun _ _ _ H hs => H.step hs) (.init task data)

/-- A closed pipe has returned everything. -/
theorem returned_of_closed (H : Inv s) (hc : s.fd.closed = true) : s.returned = s.written := by
  obtain ⟨hfin, hlen, hall⟩ := H.closed hc
  have hwritten := H.written
  simp only [unsent, H.finished hfin, List.append_nil] at hwritten
  rw [hwritten, H.sent, hlen, flatMap_pipeBytes_eq_nil hall]
  simp

end Inv

/-- What `Read` has returned is always a prefix of what was sent, and that of what was written.
After a `Read` with `len > 0` that returned nothing, `FinishWrite` has been called, everything
written had been returned, and every later `Read` returned nothing. -/
theorem read_returns_written {task : Task Ctx}
    (h : (system Ctx).Reachable (init task data) s) :
    s.returned <+: s.sent ∧ s.sent <+: s.written ∧
    ∀ pre len post, s.reads = pre ++ (len, []) :: post → 0 < len →
      s.finished = true ∧ pre.flatMap Prod.snd = s.written ∧ ∀ r ∈ post, r.2 = [] := by
  have H := Inv.reachable h
  refine ⟨⟨_, H.sent.symm⟩, ⟨_, H.written.symm⟩, fun pre len post hreads hlen => ?_⟩
  obtain ⟨hc, hpost⟩ := H.reads pre len post hreads hlen
  refine ⟨(H.closed hc).1, ?_, hpost⟩
  have hnil : post.flatMap Prod.snd = [] := List.flatMap_eq_nil_iff.mpr hpost
  rw [← H.returned_of_closed hc, returned, hreads]
  simp [hnil]

/-- Twenty bytes are written, a key is pressed, and the reader asks for five bytes and then for
more until the stream ends. -/
theorem read_returns_written_twenty :
    let s := ((system Unit).exec (init { context := () } fun _ => 0)
      [.write (fun i => UInt8.ofNat i) 20, .writeLoop, .sendMessage (.kKeyPush 0 0 0 1), .writeLoop,
        .writeLoop, .finishWrite, .read (fun _ => 0) 5, .readLoop, .read (fun _ => 0) 64,
        .read (fun _ => 0) 64, .readLoop, .readLoop, .read (fun _ => 0) 1, .readLoop]).get rfl
    s.returned <+: s.sent ∧ s.sent <+: s.written ∧
    ∀ pre len post, s.reads = pre ++ (len, []) :: post → 0 < len →
      s.finished = true ∧ pre.flatMap Prod.snd = s.written ∧ ∀ r ∈ post, r.2 = [] :=
  read_returns_written (Transition.System.reachable_of_exec (Option.some_get _).symm)

end Stream

end MikanOS.PipeDescriptor
