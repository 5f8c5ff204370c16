import MikanOS.Library.Bytes

/-! # FAT volumes

The file allocation table, the clusters and the directory entries of a volume image (`fat.hpp`,
`fat.cpp`), with the allocation of clusters. Cluster numbers are `unsigned long`, entries of the
table `uint32_t`. -/

namespace MikanOS.Fat

/-- `DirectoryEntry` without its times: the short name, the attribute and where the file is. -/
structure DirectoryEntry where
  name : Vector UInt8 11
  attr : UInt8
  firstClusterHigh : Nat
  firstClusterLow : Nat
  fileSize : Nat

/-- A pointer to a directory entry: its cluster and its place in the cluster. -/
structure EntryRef where
  cluster : Nat
  index : Nat
  deriving DecidableEq

/-- A volume image. `fat` reads the words from the beginning of the table on, of which `fatWords`
lie in the image; `data` is the memory that `GetSectorByCluster` points to, as bytes, and `entry` the
same memory as directory entries. -/
structure Volume where
  bytesPerCluster : Nat
  rootCluster : Nat
  fatWords : Nat
  fat : Nat → Nat
  data : Nat → Nat → UInt8
  entry : EntryRef → DirectoryEntry

namespace DirectoryEntry

variable (e : DirectoryEntry)

def firstCluster : Nat := e.firstClusterLow ||| e.firstClusterHigh <<< 16

/-- The two halves of the first cluster as `Write` stores them. -/
def setFirstCluster (cluster : Nat) : DirectoryEntry :=
  { e with
    firstClusterLow := cluster &&& 0xffff
    firstClusterHigh := (cluster >>> 16) &&& 0xffff }

theorem firstCluster_setFirstCluster {cluster : Nat} (h : cluster < 2 ^ 32) :
    (e.setFirstCluster cluster).firstCluster = cluster := by
  have hlow : cluster &&& 0xffff = cluster % 2 ^ 16 := Nat.and_two_pow_sub_one_eq_mod cluster 16
  have hhigh : (cluster >>> 16) &&& 0xffff = cluster / 2 ^ 16 := by
    have : (cluster >>> 16) &&& 0xffff = (cluster >>> 16) % 2 ^ 16 :=
      Nat.and_two_pow_sub_one_eq_mod _ 16
    rw [this, Nat.shiftRight_eq_div_pow, Nat.mod_eq_of_lt (by omega)]
  simp only [firstCluster, setFirstCluster, hlow, hhigh]
  rw [Nat.or_comm, ← Nat.shiftLeft_add_eq_or_of_lt (Nat.mod_lt _ (by decide)), Nat.shiftLeft_eq]
  omega

end DirectoryEntry

def kEndOfClusterchain : Nat := 0x0fffffff

def IsEndOfClusterchain (cluster : Nat) : Prop := cluster ≥ 0x0ffffff8

instance (cluster : Nat) : Decidable (IsEndOfClusterchain cluster) :=
  inferInstanceAs (Decidable (cluster ≥ 0x0ffffff8))

namespace Volume

variable (vol : Volume)

def setFat (cluster value : Nat) : Volume :=
  { vol with fat := Function.update vol.fat cluster (value % 2 ^ 32) }

def setData (cluster : Nat) (bytes : Nat → UInt8) : Volume :=
  { vol with data := Function.update vol.data cluster bytes }

def setEntry (r : EntryRef) (e : DirectoryEntry) : Volume :=
  { vol with entry := Function.update vol.entry r e }

def nextCluster (cluster : Nat) : Nat :=
  let next := vol.fat cluster
  if IsEndOfClusterchain next then kEndOfClusterchain else next

/-- The loop of `ExtendCluster` that goes to the end of the chain. A chain with an end has at most
`fatWords` clusters; on any other the loop does not end. -/
def endOfChain : Nat → Nat → Option Nat
  | 0, _ => none
  | fuel + 1, eocCluster =>
    if IsEndOfClusterchain (vol.fat eocCluster) then some eocCluster
    else endOfChain fuel (vol.fat eocCluster)

/-- The loop of `ExtendCluster` that takes `n` free clusters, with the number of candidates left in
the image. -/
def extendLoop (vol : Volume) : Nat → Nat → Nat → Nat → Option (Volume × Nat)
  | _, _, current, 0 => some (vol, current)
  | 0, _, _, _ + 1 => none
  | fuel + 1, candidate, current, n + 1 =>
    if vol.fat candidate ≠ 0 then extendLoop vol fuel (candidate + 1) current (n + 1)
    else extendLoop (vol.setFat current candidate) fuel (candidate + 1) candidate n

/-- `ExtendCluster`, if it returns. -/
def extendCluster (eocCluster n : Nat) : Option (Nat × Volume) := do
  let eocCluster ← vol.endOfChain vol.fatWords eocCluster
  let (vol, current) ← vol.extendLoop (vol.fatWords - 2) 2 eocCluster n
  pure (current, vol.setFat current kEndOfClusterchain)

/-- The search of `AllocateClusterChain` for a free cluster. -/
def findFree : Nat → Nat → Option Nat
  | 0, _ => none
  | fuel + 1, cluster => if vol.fat cluster = 0 then some cluster else findFree fuel (cluster + 1)

/-- `AllocateClusterChain`, if it returns. -/
def allocateClusterChain (n : Nat) : Option (Nat × Volume) := do
  let firstCluster ← vol.findFree (vol.fatWords - 2) 2
  let vol := vol.setFat firstCluster kEndOfClusterchain
  if n > 1 then
    let (_, vol) ← vol.extendCluster firstCluster (n - 1)
    pure (firstCluster, vol)
  else pure (firstCluster, vol)

end Volume

end MikanOS.Fat
