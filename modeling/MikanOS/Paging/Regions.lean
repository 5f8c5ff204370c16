import MikanOS.Paging.ExecuteFile

/-! # The regions of an application

The demand-paging area grows upwards from the end of the image, the file mappings grow downwards from the
stack. `DemandPages` and `MapFile` do their arithmetic with 64 bits and check nothing. -/

namespace MikanOS

open Transition.System

/-- A `FileDescriptor` of a task, as far as `MapFile` and the page fault handler use it. -/
structure MappedFile extends FileLoad where
  size : Nat

/-- What a `Task` knows about its address space, and its open files. -/
structure Regions where
  dpagingBegin : Nat
  dpagingEnd : Nat
  fileMapEnd : Nat
  fileMaps : List FileMapping
  files : List (Option MappedFile)

/-- What a system call returns. -/
structure SyscallResult where
  value : Nat
  error : Nat
  deriving DecidableEq

def EBADF : Nat := 9

/-- `a & 0xffff'ffff'ffff'f000`. -/
def pageFloor (a : Nat) : Nat := a / 4096 * 4096

namespace Regions

variable (s : Regions)

/-- The regions that `ExecuteFile` sets up for an image that ends at `vaddrEnd`. -/
def start (vaddrEnd : Nat) (files : List (Option MappedFile)) : Regions :=
  let elfNextPage := pageFloor ((vaddrEnd + 4095) % 2 ^ 64)
  { dpagingBegin := elfNextPage
    dpagingEnd := elfNextPage
    fileMapEnd := stackFrameAddr.value
    fileMaps := []
    files }

/-- `task.Files()[fd]`, if `fd` is open. -/
def file (fd : Int) : Option MappedFile :=
  if fd < 0 ∨ s.files.length ≤ fd then none else (s.files[fd.toNat]?).join

/-- `syscall::DemandPages`. -/
def demandPages (numPages : Nat) : SyscallResult × Regions :=
  let dpEnd := s.dpagingEnd
  (⟨dpEnd, 0⟩, { s with dpagingEnd := (dpEnd + 4096 * numPages) % 2 ^ 64 })

/-- `syscall::MapFile`, but for the size that it also stores for the application. -/
def mapFile (fd : Int) : SyscallResult × Regions :=
  match s.file fd with
  | none => (⟨0, EBADF⟩, s)
  | some f =>
    let vaddrEnd := s.fileMapEnd
    let vaddrBegin := pageFloor ((vaddrEnd + 2 ^ 64 - f.size % 2 ^ 64) % 2 ^ 64)
    (⟨vaddrBegin, 0⟩, { s with
      fileMapEnd := vaddrBegin
      fileMaps := s.fileMaps ++ [⟨fd.toNat, vaddrBegin, vaddrEnd⟩] })

/-- The task as the page fault handler sees it. -/
def task : PagingTask where
  dpagingBegin := s.dpagingBegin
  dpagingEnd := s.dpagingEnd
  fileMaps := s.fileMaps
  files fd := ((s.files[fd]?).join.map (·.toFileLoad)).getD ⟨fun _ _ => [], fun _ _ => Nat.zero_le _⟩

/-- `setFiles` stands for what the other system calls do to the open files. -/
inductive Event where
  | demandPages (numPages : Nat)
  | mapFile (fd : Int)
  | setFiles (files : List (Option MappedFile))

def step : Event → Option Regions
  | .demandPages numPages => some (s.demandPages numPages).2
  | .mapFile fd => some (s.mapFile fd).2
  | .setFiles files => some { s with files }

def system : Transition.System Regions Event := ⟨step⟩

/-- The regions as intervals: the demand-paging area, the mappings, the stack and the argument page. -/
def intervals : List (Nat × Nat) :=
  (s.dpagingBegin, s.dpagingEnd) :: s.fileMaps.map (fun f => (f.vaddrBegin, f.vaddrEnd)) ++
    [(stackFrameAddr.value, stackFrameAddr.value + 16 * 4096), (argsFrameAddr.value, 2 ^ 64)]

/-- No address is in both. -/
def Apart (a b : Nat × Nat) : Prop := ∀ x, ¬(a.1 ≤ x ∧ x < a.2 ∧ b.1 ≤ x ∧ x < b.2)

/-- The address space is laid out as it should be, and a fault on a page that is not there is served by the
region that it is in. -/
structure LaidOut : Prop where
  demand : s.dpagingBegin ≤ s.dpagingEnd
  below : s.dpagingEnd ≤ s.fileMapEnd
  apart : s.intervals.Pairwise Apart
  demandFault : ∀ (m : Machine) (errorCode : Nat) (addr : LinearAddress4Level),
    errorCode.testBit 0 = false → s.dpagingBegin ≤ addr.value → addr.value < s.dpagingEnd →
    m.handlePageFault s.task errorCode addr = m.setupPageMaps addr 1 true
  fileFault : ∀ (m : Machine) (errorCode : Nat) (addr : LinearAddress4Level), ∀ f ∈ s.fileMaps,
    errorCode.testBit 0 = false → f.vaddrBegin ≤ addr.value → addr.value < f.vaddrEnd →
    m.handlePageFault s.task errorCode addr = m.preparePageCache (s.task.files f.fd) f addr

/-- The call keeps the regions in order: the demand-paging area grows up to the mappings at most, or wraps
around to an end that is not before its beginning, and a mapped file has room above it. -/
def Fits : Event → Prop
  | .demandPages numPages =>
    4096 * numPages % 2 ^ 64 ≤ s.fileMapEnd - s.dpagingEnd ∨
      2 ^ 64 - (s.dpagingEnd - s.dpagingBegin) ≤ 4096 * numPages % 2 ^ 64
  | .mapFile fd => ∀ f, s.file fd = some f → s.dpagingEnd + f.size ≤ s.fileMapEnd
  | .setFiles _ => True

/-! ## The invariant -/

/-- The mappings lie below each other, each on whole pages. -/
structure Inv : Prop where
  demand : s.dpagingBegin ≤ s.dpagingEnd
  below : s.dpagingEnd ≤ s.fileMapEnd
  stack : s.fileMapEnd ≤ stackFrameAddr.value
  aligned : 4096 ∣ s.dpagingEnd
  alignedMap : 4096 ∣ s.fileMapEnd
  maps : ∀ f ∈ s.fileMaps, s.fileMapEnd ≤ f.vaddrBegin ∧ f.vaddrBegin ≤ f.vaddrEnd ∧
    f.vaddrEnd ≤ stackFrameAddr.value ∧ 4096 ∣ f.vaddrBegin ∧ 4096 ∣ f.vaddrEnd
  order : s.fileMaps.Pairwise fun f g => g.vaddrEnd ≤ f.vaddrBegin

variable {s} {s' : Regions} {f : FileMapping}

theorem stackFrameAddr_value : stackFrameAddr.value = 0xfffffffffffee000 := by decide

theorem argsFrameAddr_value : argsFrameAddr.value = 0xfffffffffffff000 := by decide

theorem pageFloor_dvd (a : Nat) : 4096 ∣ pageFloor a := Nat.dvd_mul_left ..

theorem demandFault {errorCode : Nat} (hcode : errorCode.testBit 0 = false) (m : Machine)
    {addr : LinearAddress4Level} (hlo : s.dpagingBegin ≤ addr.value) (hhi : addr.value < s.dpagingEnd) :
    m.handlePageFault s.task errorCode addr = m.setupPageMaps addr 1 true := by
  have hin : s.task.dpagingBegin ≤ addr.value ∧ addr.value < s.task.dpagingEnd := ⟨hlo, hhi⟩
  simp only [Machine.handlePageFault, hcode, Bool.false_and, Bool.false_eq_true, if_false, if_pos hin]

/-- In mappings that lie below each other, an address is found where it is. -/
theorem findFileMapping_of_order {fmaps : List FileMapping}
    (horder : fmaps.Pairwise fun f g => g.vaddrEnd ≤ f.vaddrBegin) (hf : f ∈ fmaps) {vaddr : Nat}
    (hlo : f.vaddrBegin ≤ vaddr) (hhi : vaddr < f.vaddrEnd) :
    Machine.findFileMapping fmaps vaddr = some f := by
  induction horder with
  | nil => exact absurd hf List.not_mem_nil
  | @cons g fmaps hg _ ih =>
    rw [Machine.findFileMapping, List.find?_cons]
    rcases List.mem_cons.mp hf with rfl | hf
    · have hin : (f.vaddrBegin ≤ vaddr && vaddr < f.vaddrEnd) = true := by
        simp only [hlo, hhi, decide_true, Bool.and_true]
      rw [hin]
    · have hout : (g.vaddrBegin ≤ vaddr && vaddr < g.vaddrEnd) = false := by
        have hbelow : ¬g.vaddrBegin ≤ vaddr := Nat.not_le.mpr (hhi.trans_le (hg f hf))
        simp only [hbelow, decide_false, Bool.false_and]
      rw [hout]
      exact ih hf

theorem fileFault {errorCode : Nat} (hcode : errorCode.testBit 0 = false) (m : Machine)
    {addr : LinearAddress4Level} (hout : s.dpagingEnd ≤ addr.value)
    (hfind : Machine.findFileMapping s.fileMaps addr.value = some f) :
    m.handlePageFault s.task errorCode addr = m.preparePageCache (s.task.files f.fd) f addr := by
  have hdemand : ¬(s.task.dpagingBegin ≤ addr.value ∧ addr.value < s.task.dpagingEnd) :=
    fun hin => Nat.not_lt.mpr hout hin.2
  have hfind' : Machine.findFileMapping s.task.fileMaps addr.value = some f := hfind
  simp only [Machine.handlePageFault, hcode, Bool.false_and, Bool.false_eq_true, if_false,
    if_neg hdemand, hfind']

namespace Inv

theorem start {vaddrEnd : Nat} (h : vaddrEnd ≤ stackFrameAddr.value)
    (files : List (Option MappedFile)) : Inv (start vaddrEnd files) := by
  have hstack := stackFrameAddr_value
  have hle : pageFloor ((vaddrEnd + 4095) % 2 ^ 64) ≤ stackFrameAddr.value := by
    rw [pageFloor]
    omega
  refine ⟨Nat.le_refl _, hle, Nat.le_refl _, pageFloor_dvd _, ?_, fun f h => absurd h List.not_mem_nil,
    .nil⟩
  change 4096 ∣ stackFrameAddr.value
  rw [hstack]
  decide

theorem demandPages (H : Inv s) {numPages : Nat} (hfits : s.Fits (.demandPages numPages)) :
    Inv (s.demandPages numPages).2 := by
  have hdemand := H.demand
  have hbelow := H.below
  have hstack := H.stack
  have hvalue := stackFrameAddr_value
  have haligned := H.aligned
  rw [Fits] at hfits
  refine ⟨?_, ?_, H.stack, ?_, H.alignedMap, H.maps, H.order⟩
  · change s.dpagingBegin ≤ (s.dpagingEnd + 4096 * numPages) % 2 ^ 64
    omega
  · change (s.dpagingEnd + 4096 * numPages) % 2 ^ 64 ≤ s.fileMapEnd
    omega
  · change 4096 ∣ (s.dpagingEnd + 4096 * numPages) % 2 ^ 64
    omega

theorem mapFile (H : Inv s) {fd : Int} (hfits : s.Fits (.mapFile fd)) : Inv (s.mapFile fd).2 := by
  rw [Regions.mapFile]
  cases hfile : s.file fd with
  | none => exact H
  | some f =>
    have hsize := hfits f hfile
    have hstack := H.stack
    have hvalue := stackFrameAddr_value
    have haligned := H.aligned
    have halignedMap := H.alignedMap
    have hbegin : (s.fileMapEnd + 2 ^ 64 - f.size % 2 ^ 64) % 2 ^ 64 = s.fileMapEnd - f.size := by
      omega
    have hle : pageFloor (s.fileMapEnd - f.size) ≤ s.fileMapEnd := by
      rw [pageFloor]
      omega
    have hge : s.dpagingEnd ≤ pageFloor (s.fileMapEnd - f.size) := by
      rw [pageFloor]
      omega
    simp only [hbegin]
    refine ⟨H.demand, hge, hle.trans hstack, haligned, pageFloor_dvd _, fun g hg => ?_, ?_⟩
    · rcases List.mem_append.mp hg with hg | hg
      · exact ⟨hle.trans (H.maps g hg).1, (H.maps g hg).2⟩
      · rw [List.mem_singleton.mp hg]
        exact ⟨Nat.le_refl _, hle, hstack, pageFloor_dvd _, halignedMap⟩
    · rw [List.pairwise_append]
      refine ⟨H.order, List.pairwise_singleton .., fun g hg g' hg' => ?_⟩
      rw [List.mem_singleton.mp hg']
      exact (H.maps g hg).1

theorem step (H : Inv s) {e : Event} (hfits : s.Fits e) (hs : s.step e = some s') : Inv s' := by
  cases e with
  | demandPages numPages =>
    cases hs
    exact H.demandPages hfits
  | mapFile fd =>
    cases hs
    exact H.mapFile hfits
  | setFiles files =>
    cases hs
    exact ⟨H.demand, H.below, H.stack, H.aligned, H.alignedMap, H.maps, H.order⟩

theorem apart (H : Inv s) : s.intervals.Pairwise Apart := by
  have hstack := stackFrameAddr_value
  have hargs := argsFrameAddr_value
  have hbelow := H.below
  have htop := H.stack
  rw [intervals, List.cons_append, List.pairwise_cons, List.pairwise_append, List.pairwise_map]
  refine ⟨fun b hb => ?_, H.order.imp fun hle x hx => ?_, ?_, fun a ha b hb => ?_⟩
  · rcases List.mem_append.mp hb with hb | hb
    · obtain ⟨f, hf, rfl⟩ := List.mem_map.mp hb
      have hmap := (H.maps f hf).1
      intro x hx
      simp only at hx
      omega
    · intro x hx
      rcases List.mem_pair.mp hb with rfl | rfl <;> simp only at hx <;> omega
  · simp only at hx
    omega
  · rw [List.pairwise_pair]
    intro x hx
    simp only at hx
    omega
  · obtain ⟨f, hf, rfl⟩ := List.mem_map.mp ha
    have hmap := (H.maps f hf).2.2.1
    intro x hx
    rcases List.mem_pair.mp hb with rfl | rfl <;> simp only at hx <;> omega

theorem laidOut (H : Inv s) : LaidOut s where
  demand := H.demand
  below := H.below
  apart := H.apart
  demandFault m _ _ hcode hlo hhi := Regions.demandFault hcode m hlo hhi
  fileFault m _ _ f hf hcode hlo hhi := Regions.fileFault hcode m
    ((H.below.trans (H.maps f hf).1).trans hlo) (findFileMapping_of_order H.order hf hlo hhi)

end Inv

/-! ## The layout over a run -/

/-- The end of an image of one page. -/
def smallImage : Nat := 0xffff800000000123

/-- A file of 5000 zeros. -/
def zeroFile : MappedFile where
  load len _ := List.replicate (min len 5000) 0
  length_load _ _ := by
    rw [List.length_replicate]
    exact Nat.min_le_left ..
  size := 5000

end Regions

end MikanOS
