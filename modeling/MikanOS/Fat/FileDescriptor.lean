import MikanOS.Fat.Volume

/-! # File descriptors

`fat::FileDescriptor`: `Read` and `Write` walk along the chain of the file, each with a cluster and
an offset in it. `Read` goes on to the next cluster when it has reached the end of one, `Write` when
it has more to write. -/

namespace MikanOS.Fat

open Bytes

structure FileDescriptor where
  fatEntry : EntryRef
  rdOff : Nat := 0
  rdCluster : Nat := 0
  rdClusterOff : Nat := 0
  wrOff : Nat := 0
  wrCluster : Nat := 0
  wrClusterOff : Nat := 0

namespace FileDescriptor

variable (vol : Volume) (fd : FileDescriptor) (buf : Nat → UInt8) (len : Nat)

/-- The loop of `Read`, with a bound on its turns; each copies at least one byte. -/
def readLoop : Nat → Nat → (Nat → UInt8) → FileDescriptor →
    Option (Nat × (Nat → UInt8) × FileDescriptor)
  | 0, _, _, _ => none
  | fuel + 1, total, buf, fd =>
    if total < len then
      let n := min (len - total) (vol.bytesPerCluster - fd.rdClusterOff)
      let buf := memcpy buf total (vol.data fd.rdCluster) fd.rdClusterOff n
      let rdClusterOff := fd.rdClusterOff + n
      let fd :=
        if rdClusterOff = vol.bytesPerCluster then
          { fd with rdCluster := vol.nextCluster fd.rdCluster, rdClusterOff := 0 }
        else { fd with rdClusterOff }
      readLoop fuel (total + n) buf fd
    else some (total, buf, fd)

/-- `Read`: the count, the buffer and the descriptor. The bytes left are a difference of two
`size_t`. -/
def read : Option (Nat × (Nat → UInt8) × FileDescriptor) := do
  let fd :=
    if fd.rdCluster = 0 then { fd with rdCluster := (vol.entry fd.fatEntry).firstCluster } else fd
  let len := min len (((vol.entry fd.fatEntry).fileSize + 2 ^ 64 - fd.rdOff) % 2 ^ 64)
  let (total, buf, fd) ← readLoop vol len (len + 1) 0 buf fd
  pure (total, buf, { fd with rdOff := (fd.rdOff + total) % 2 ^ 64 })

/-- The number of clusters for some bytes, from the lambda of `Write`. -/
def numCluster (bytes : Nat) : Nat := (bytes + vol.bytesPerCluster - 1) / vol.bytesPerCluster

/-- The beginning of `Write`: the first cluster of the file, allocated if it has none. -/
def openWrite : Option (Volume × FileDescriptor) :=
  if fd.wrCluster = 0 then
    let e := vol.entry fd.fatEntry
    if e.firstCluster ≠ 0 then some (vol, { fd with wrCluster := e.firstCluster })
    else do
      let (wrCluster, vol) ← vol.allocateClusterChain (numCluster vol len)
      let vol := vol.setEntry fd.fatEntry ((vol.entry fd.fatEntry).setFirstCluster wrCluster)
      pure (vol, { fd with wrCluster })
  else some (vol, fd)

/-- The advance to the next cluster in the loop of `Write`, with `rest` bytes to write. -/
def advance (rest : Nat) : Option (Volume × FileDescriptor) :=
  if fd.wrClusterOff = vol.bytesPerCluster then
    let nextCluster := vol.nextCluster fd.wrCluster
    if nextCluster = kEndOfClusterchain then do
      let (_, vol) ← vol.extendCluster fd.wrCluster (numCluster vol rest)
      pure (vol, { fd with wrCluster := vol.nextCluster fd.wrCluster, wrClusterOff := 0 })
    else some (vol, { fd with wrCluster := nextCluster, wrClusterOff := 0 })
  else some (vol, fd)

/-- The loop of `Write`, with a bound on its turns; each writes at least one byte. The number of
bytes that a turn copies is bounded by `len`, whatever `total` is. -/
def writeLoop : Nat → Nat → Volume → FileDescriptor → Option (Nat × Volume × FileDescriptor)
  | 0, _, _, _ => none
  | fuel + 1, total, vol, fd =>
    if total < len then do
      let (vol, fd) ← advance vol fd (len - total)
      let n := min len (vol.bytesPerCluster - fd.wrClusterOff)
      let sec := memcpy (vol.data fd.wrCluster) fd.wrClusterOff buf total n
      writeLoop fuel (total + n) (vol.setData fd.wrCluster sec)
        { fd with wrClusterOff := fd.wrClusterOff + n }
    else some (total, vol, fd)

/-- `Write`: the count, the volume and the descriptor. -/
def write : Option (Nat × Volume × FileDescriptor) := do
  let (vol, fd) ← openWrite vol fd len
  let (total, vol, fd) ← writeLoop buf len (len + 1) 0 vol fd
  let fd := { fd with wrOff := fd.wrOff + total }
  let e := vol.entry fd.fatEntry
  pure (total, vol.setEntry fd.fatEntry { e with fileSize := fd.wrOff % 2 ^ 32 }, fd)

/-- The loop of `Load` that goes to the cluster of the offset, with a bound on its turns. -/
def loadLoop : Nat → Nat → Nat → Option (Nat × Nat)
  | 0, _, _ => none
  | fuel + 1, offset, cluster =>
    if offset ≥ vol.bytesPerCluster then
      loadLoop fuel (offset - vol.bytesPerCluster) (vol.nextCluster cluster)
    else some (offset, cluster)

/-- `Load`: what a fresh descriptor reads from the offset on. -/
def load (offset : Nat) : Option (Nat × (Nat → UInt8)) := do
  let cluster := (vol.entry fd.fatEntry).firstCluster
  let (rdClusterOff, rdCluster) ← loadLoop vol (offset + 1) offset cluster
  let fd := { fatEntry := fd.fatEntry, rdOff := offset, rdCluster, rdClusterOff }
  let (total, buf, _) ← read vol fd buf len
  pure (total, buf)

end FileDescriptor

end MikanOS.Fat
