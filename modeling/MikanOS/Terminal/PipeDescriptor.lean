import MikanOS.Library.Bytes
import MikanOS.Task.TaskManager

/-! # Pipes

`PipeDescriptor` of `terminal.cpp`: a byte stream cut into messages of at most 16 bytes, with the
rest of a message that a short read leaves. A zero-length message ends the stream. -/

namespace MikanOS

open Bytes

/-- `Task::SendMessage` as far as the message queue goes. -/
def Task.sendMessage {Ctx : Type} (task : Task Ctx) (msg : Message) : Task Ctx :=
  { task with msgs := task.msgs ++ [msg] }

/-- `PipeDescriptor`, without the reference to the reading task. -/
structure PipeDescriptor where
  data : Nat → UInt8
  len : Nat := 0
  closed : Bool := false

namespace PipeDescriptor

variable {Ctx : Type} (fd : PipeDescriptor) (task : Task Ctx) (buf : Nat → UInt8) (len : Nat)

/-- What `Read` leaves: the count that it returns, the buffer and the descriptor. -/
structure ReadResult where
  copyBytes : Nat
  buf : Nat → UInt8
  fd : PipeDescriptor

/-- `Read` before its loop: the rest of an earlier message, or the end of the stream. -/
def readCarried : Option ReadResult :=
  if fd.len > 0 then
    let copyBytes := min fd.len len
    let rest := fd.len - copyBytes
    some {
      copyBytes
      buf := memcpy buf 0 fd.data 0 copyBytes
      fd := { fd with len := rest, data := memcpy fd.data 0 fd.data copyBytes rest } }
  else if fd.closed then some ⟨0, buf, fd⟩
  else none

/-- One turn of the loop of `Read`. Without a result the call goes round again, after a sleep if
there was no message. -/
def readLoop : Option ReadResult × Task Ctx :=
  match task.receiveMessage with
  | (none, task) => (none, task)
  | (some (.kPipe data msgLen), task) =>
    if msgLen = 0 then (some ⟨0, buf, { fd with closed := true }⟩, task)
    else
      let copyBytes := min msgLen.toNat len
      let rest := msgLen.toNat - copyBytes
      (some {
        copyBytes
        buf := memcpy buf 0 data 0 copyBytes
        fd := { fd with len := rest, data := memcpy fd.data 0 data copyBytes rest } }, task)
  | (some _, task) => (none, task)

/-- The local variables of a `Write` call: its arguments, `sent_bytes` and the bytes of `msg`. -/
structure WriteLoop where
  buf : Nat → UInt8
  len : Nat
  sentBytes : Nat
  data : Nat → UInt8

/-- `Write` up to its loop. -/
def write : WriteLoop := ⟨buf, len, 0, fun _ => 0⟩

/-- The size of `arg.pipe.data`. -/
def kPipeData : Nat := 16

/-- One turn of the loop of `Write`, if it is not over: the loop's variables and the receiver. -/
def writeLoop (w : WriteLoop) : Option (WriteLoop × Task Ctx) :=
  if w.sentBytes < w.len then
    let msgLen := UInt8.ofNat (min (w.len - w.sentBytes) kPipeData)
    let data := memcpy w.data 0 w.buf w.sentBytes msgLen.toNat
    some ({ w with sentBytes := w.sentBytes + msgLen.toNat, data },
      task.sendMessage (.kPipe data msgLen))
  else none

def finishWrite : Task Ctx := task.sendMessage (.kPipe (fun _ => 0) 0)

end PipeDescriptor

end MikanOS
