import MikanOS.Graphics.PixelWriter
import MikanOS.Paging.Regions

/-! # Heap growth of an application

`sbrk` of the applications' `newlib_support.c` on top of the system call `DemandPages`. The end of the area
is kept twice: in static variables of the application, and in the task. -/

namespace MikanOS

/-- An `int` as an unsigned number of 64 bits. -/
def unsigned64 (v : Int) : Nat := (v % 2 ^ 64).toNat

/-- A call of the application. -/
inductive HeapCall where
  | sbrk (incr : Int)
  | demandPages (numPages : Nat)

/-- The regions of the task, the static variables of `sbrk`, and the regions that calls have returned, as
intervals. -/
structure AppHeap where
  regions : Regions
  dpageEnd : Nat
  programBreak : Nat
  returned : List (Nat × Nat)

namespace Regions.Apart

variable {a b b' : Nat × Nat}

theorem of_le (hle : a.2 ≤ b.1) : Apart a b := fun _ hx =>
  absurd (hx.2.1.trans_le hle) (Nat.not_lt.mpr hx.2.2.1)

theorem of_ge (hle : b.2 ≤ a.1) : Apart a b := fun _ hx =>
  absurd (hx.2.2.2.trans_le hle) (Nat.not_lt.mpr hx.1)

/-- A part of an interval. -/
theorem mono (h : Apart a b) (hlow : b.1 ≤ b'.1) (hhigh : b'.2 ≤ b.2) : Apart a b' := fun x hx =>
  h x ⟨hx.1, hx.2.1, hlow.trans hx.2.2.1, hx.2.2.2.trans_le hhigh⟩

end Regions.Apart

namespace AppHeap

/-- What `ExecuteFile` sets up, with the static variables of a program that has just been loaded. -/
def start (vaddrEnd : Nat) (files : List (Option MappedFile)) : AppHeap :=
  ⟨.start vaddrEnd files, 0, 0, []⟩

variable (h : AppHeap)

/-- `num_pages`. -/
def numPages (incr : Int) : Int := Int.tdiv (wrap32 (incr + 4095)) 4096

/-- `program_break + incr`. -/
def nextBreak (incr : Int) : Nat := (h.programBreak + unsigned64 incr) % 2 ^ 64

/-- `sbrk`. `none` stands for `(caddr_t)-1`. -/
def sbrk (incr : Int) : Option Nat × AppHeap :=
  if h.dpageEnd = 0 ∨ h.dpageEnd < h.nextBreak incr then
    let (res, regions) := h.regions.demandPages (unsigned64 (numPages incr))
    if res.error ≠ 0 then (none, { h with regions })
    else (some res.value, { h with
      regions
      dpageEnd := (res.value + unsigned64 (wrap32 (4096 * numPages incr))) % 2 ^ 64
      programBreak := (res.value + unsigned64 incr) % 2 ^ 64 })
  else (some h.programBreak, { h with programBreak := h.nextBreak incr })

def call : HeapCall → AppHeap
  | .sbrk incr =>
    let (p, h') := h.sbrk incr
    { h' with returned := (p.map fun p => (p, p + incr.toNat)).toList ++ h.returned }
  | .demandPages numPages =>
    let (res, regions) := h.regions.demandPages numPages
    { h with regions, returned := (res.value, res.value + 4096 * numPages) :: h.returned }

/-- What calls leave. -/
def after (calls : List HeapCall) : AppHeap := calls.foldl call h

/-- The arguments of the calls: the sizes are not negative, the numbers of pages of the type `size_t`. -/
def InRange : HeapCall → Prop
  | .sbrk incr => 0 ≤ incr ∧ incr < 2 ^ 31
  | .demandPages numPages => numPages < 2 ^ 64

/-- The next `sbrk` returns a region that lies in the demand-paging area and apart from all that were
returned before. -/
def Sound (incr : Int) : Prop :=
  ∃ p, (h.sbrk incr).1 = some p ∧ h.regions.dpagingBegin ≤ p ∧
    p + incr.toNat ≤ (h.sbrk incr).2.regions.dpagingEnd ∧
    ∀ r ∈ h.returned, Regions.Apart r (p, p + incr.toNat)

/-- None of the sums of a call is out of range: the `int` that the number of pages comes from, and the ends of
the areas. -/
def Meets : HeapCall → Prop
  | .sbrk incr => incr + 4095 < 2 ^ 31 ∧ h.programBreak + incr.toNat < 2 ^ 64 ∧
      (h.dpageEnd = 0 ∨ h.dpageEnd < h.programBreak + incr.toNat →
        h.regions.dpagingEnd + 4096 * ((incr.toNat + 4095) / 4096) < 2 ^ 64)
  | .demandPages numPages => h.regions.dpagingEnd + 4096 * numPages < 2 ^ 64

/-- What is returned lies in the area of the task, and beside the part of it that `sbrk` has left. -/
structure Inv : Prop where
  area : h.regions.dpagingBegin ≤ h.regions.dpagingEnd
  lt : h.regions.dpagingEnd < 2 ^ 64
  chunk : h.dpageEnd = 0 ∨ h.regions.dpagingBegin ≤ h.programBreak ∧ h.programBreak ≤ h.dpageEnd ∧
    h.dpageEnd ≤ h.regions.dpagingEnd
  within : ∀ r ∈ h.returned, r.2 ≤ h.regions.dpagingEnd
  apart : ∀ r ∈ h.returned, Regions.Apart r (h.programBreak, h.dpageEnd)

instance : (c : HeapCall) → Decidable (InRange c)
  | .sbrk _ => inferInstanceAs (Decidable (_ ∧ _))
  | .demandPages _ => inferInstanceAs (Decidable (_ < _))

instance : (c : HeapCall) → Decidable (h.Meets c)
  | .sbrk _ => inferInstanceAs (Decidable (_ ∧ _ ∧ (_ → _)))
  | .demandPages _ => inferInstanceAs (Decidable (_ < _))

variable {h} {incr : Int} {numPages : Nat} {c : HeapCall} {calls : List HeapCall}

/-! ## One call -/

theorem unsigned64_eq (hnonneg : 0 ≤ incr) (hlt : incr < 2 ^ 31) : unsigned64 incr = incr.toNat := by
  rw [unsigned64, Int.emod_eq_of_lt hnonneg (by omega)]

/-- Where the `int` does not overflow, the pages are as many as the bytes need. -/
theorem numPages_eq (hnonneg : 0 ≤ incr) (hfits : incr + 4095 < 2 ^ 31) :
    AppHeap.numPages incr = ((incr.toNat + 4095) / 4096 : Nat) := by
  rw [AppHeap.numPages, wrap32_of_range (by omega) hfits, Int.tdiv_eq_ediv_of_nonneg (by omega)]
  omega

/-- `sbrk` without a wrap: it goes on in its chunk, or takes a new one at the end of the area. -/
theorem sbrk_eq (hrange : InRange (.sbrk incr)) (hmeets : h.Meets (.sbrk incr)) :
    h.sbrk incr = if h.dpageEnd = 0 ∨ h.dpageEnd < h.programBreak + incr.toNat then
      (some h.regions.dpagingEnd, { h with
        regions := { h.regions with
          dpagingEnd := h.regions.dpagingEnd + 4096 * ((incr.toNat + 4095) / 4096) }
        dpageEnd := h.regions.dpagingEnd + 4096 * ((incr.toNat + 4095) / 4096)
        programBreak := h.regions.dpagingEnd + incr.toNat })
    else (some h.programBreak, { h with programBreak := h.programBreak + incr.toNat }) := by
  obtain ⟨hnonneg, hlt⟩ := hrange
  obtain ⟨hint, hbreak, hend⟩ := hmeets
  have hbytes := unsigned64_eq hnonneg hlt
  have hnext : h.nextBreak incr = h.programBreak + incr.toNat := by
    rw [nextBreak, hbytes, Nat.mod_eq_of_lt hbreak]
  rw [sbrk, hnext]
  refine ite_congr rfl (fun hneeds => ?_) fun _ => rfl
  have hpages := numPages_eq hnonneg hint
  generalize hk : (incr.toNat + 4095) / 4096 = k at *
  have hsize : unsigned64 (AppHeap.numPages incr) = k := by
    rw [hpages, unsigned64_eq (Int.natCast_nonneg k) (by omega), Int.toNat_natCast]
  have hgrowth : unsigned64 (wrap32 (4096 * AppHeap.numPages incr)) = 4096 * k := by
    rw [hpages, wrap32_of_range (by omega) (by omega), unsigned64_eq (by omega) (by omega)]
    omega
  have hfits := hend hneeds
  have hdemand : h.regions.demandPages k =
      (⟨h.regions.dpagingEnd, 0⟩, { h.regions with dpagingEnd := h.regions.dpagingEnd + 4096 * k }) := by
    rw [Regions.demandPages, Nat.mod_eq_of_lt hfits]
  rw [hsize, hgrowth, hbytes, hdemand]
  dsimp only
  rw [if_neg (not_not.mpr rfl), Nat.mod_eq_of_lt hfits, Nat.mod_eq_of_lt (by omega)]

/-- What `sbrk` returns, and that it and its state come after what there was before. -/
theorem sbrk_spec (H : Inv h) (hrange : InRange (.sbrk incr)) (hmeets : h.Meets (.sbrk incr)) :
    ∃ p, (h.sbrk incr).1 = some p ∧ h.regions.dpagingBegin ≤ p ∧
      p + incr.toNat ≤ (h.sbrk incr).2.regions.dpagingEnd ∧
      (∀ r ∈ h.returned, Regions.Apart r (p, p + incr.toNat)) ∧
      Inv { (h.sbrk incr).2 with returned := (p, p + incr.toNat) :: h.returned } := by
  obtain ⟨harea, hlt, hchunk, hwithin, hapart⟩ := H
  rw [sbrk_eq hrange hmeets]
  obtain ⟨-, -, hend⟩ := hmeets
  split
  · next hneeds =>
    -- a new chunk, above everything
    have hfits := hend hneeds
    have hroom : incr.toNat ≤ 4096 * ((incr.toNat + 4095) / 4096) := by omega
    generalize 4096 * ((incr.toNat + 4095) / 4096) = bytes at *
    refine ⟨_, rfl, harea, Nat.add_le_add_left hroom _, fun r hr => .of_le (hwithin r hr), ?_⟩
    refine ⟨harea.trans (Nat.le_add_right _ _), hfits, .inr ⟨harea.trans (Nat.le_add_right _ _),
      Nat.add_le_add_left hroom _, le_rfl⟩, fun r hr => ?_, fun r hr => ?_⟩
    · rcases List.mem_cons.mp hr with rfl | hr
      · exact Nat.add_le_add_left hroom _
      · exact (hwithin r hr).trans (Nat.le_add_right _ _)
    · rcases List.mem_cons.mp hr with rfl | hr
      · exact .of_le le_rfl
      · exact .of_le ((hwithin r hr).trans (Nat.le_add_right _ _))
  · next hstays =>
    obtain ⟨hnonzero, hroom⟩ := not_or.mp hstays
    obtain ⟨hlow, hmiddle, hhigh⟩ := hchunk.resolve_left hnonzero
    have hroom := Nat.not_lt.mp hroom
    refine ⟨_, rfl, hlow, hroom.trans hhigh, fun r hr => (hapart r hr).mono le_rfl hroom, ?_⟩
    refine ⟨harea, hlt, .inr ⟨hlow.trans (Nat.le_add_right _ _), hroom, hhigh⟩, fun r hr => ?_,
      fun r hr => ?_⟩
    · rcases List.mem_cons.mp hr with rfl | hr
      · exact hroom.trans hhigh
      · exact hwithin r hr
    · rcases List.mem_cons.mp hr with rfl | hr
      · exact .of_le le_rfl
      · exact (hapart r hr).mono (Nat.le_add_right _ _) le_rfl

/-- `DemandPages` puts what it returns above everything. -/
theorem Inv.demandPages (H : Inv h) (hmeets : h.Meets (.demandPages numPages)) :
    Inv (h.call (.demandPages numPages)) := by
  obtain ⟨harea, hlt, hchunk, hwithin, hapart⟩ := H
  have hdemand : h.regions.demandPages numPages = (⟨h.regions.dpagingEnd, 0⟩,
      { h.regions with dpagingEnd := h.regions.dpagingEnd + 4096 * numPages }) := by
    rw [Regions.demandPages, Nat.mod_eq_of_lt hmeets]
  rw [AppHeap.call, hdemand]
  refine ⟨harea.trans (Nat.le_add_right _ _), hmeets, hchunk.imp_right fun ⟨hlow, hmiddle, hhigh⟩ =>
    ⟨hlow, hmiddle, hhigh.trans (Nat.le_add_right _ _)⟩, fun r hr => ?_, fun r hr => ?_⟩
  · rcases List.mem_cons.mp hr with rfl | hr
    · exact le_rfl
    · exact (hwithin r hr).trans (Nat.le_add_right _ _)
  · rcases List.mem_cons.mp hr with rfl | hr
    · exact .of_ge (hchunk.elim (fun hzero => hzero.trans_le (Nat.zero_le _)) fun hold => hold.2.2)
    · exact hapart r hr

/-- A call that meets its condition keeps the areas apart. -/
theorem Inv.call (H : Inv h) (hrange : InRange c) (hmeets : h.Meets c) : Inv (h.call c) := by
  cases c with
  | sbrk incr =>
    obtain ⟨p, hp, -, -, -, hinv⟩ := sbrk_spec H hrange hmeets
    rw [AppHeap.call]
    dsimp only
    rw [hp]
    exact hinv
  | demandPages numPages => exact H.demandPages hmeets

/-! ## Sequences of calls -/

theorem Inv.start (vaddrEnd : Nat) (files : List (Option MappedFile)) : Inv (start vaddrEnd files) := by
  have hlt : pageFloor ((vaddrEnd + 4095) % 2 ^ 64) < 2 ^ 64 :=
    (Nat.div_mul_le_self _ _).trans_lt (Nat.mod_lt _ (by decide))
  exact ⟨le_rfl, hlt, .inl rfl, fun r hr => absurd hr List.not_mem_nil,
    fun r hr => absurd hr List.not_mem_nil⟩

theorem Inv.after (H : Inv h) (hrange : ∀ c ∈ calls, InRange c)
    (hmeets : ∀ before c, before ++ [c] <+: calls → (h.after before).Meets c) : Inv (h.after calls) := by
  induction calls using List.reverseRecOn with
  | nil => exact H
  | append_singleton calls c ih =>
    have hcalls := ih (fun c hc => hrange c (List.mem_append_left _ hc))
      fun before c hbefore => hmeets before c (hbefore.trans (List.prefix_append _ _))
    have hcall := hcalls.call (hrange c (List.mem_append_right _ (List.mem_singleton_self c)))
      (hmeets calls c (List.prefix_refl _))
    rw [AppHeap.after, List.foldl_append]
    exact hcall

/-- From the loading of an application on, as long as each call meets its condition, every `sbrk` returns a
region in the demand-paging area that is apart from all that were returned before. -/
theorem sbrk_sound (vaddrEnd : Nat) (files : List (Option MappedFile)) (calls : List HeapCall)
    (hrange : ∀ c ∈ calls, InRange c)
    (hmeets : ∀ before c, before ++ [c] <+: calls → ((start vaddrEnd files).after before).Meets c) :
    ∀ before incr, before ++ [.sbrk incr] <+: calls → ((start vaddrEnd files).after before).Sound incr := by
  intro before incr hbefore
  have hinv := (Inv.start vaddrEnd files).after
    (fun c hc => hrange c (hbefore.subset (List.mem_append_left _ hc)))
    fun before' c hc => hmeets before' c (hc.trans ((List.prefix_append _ _).trans hbefore))
  have hmem : HeapCall.sbrk incr ∈ calls :=
    hbefore.subset (List.mem_append_right _ (List.mem_singleton_self _))
  obtain ⟨p, hp, hlow, hhigh, hapart, -⟩ := sbrk_spec hinv (hrange _ hmem) (hmeets before _ hbefore)
  exact ⟨p, hp, hlow, hhigh, hapart⟩

/-- `sbrk(INT_MAX)`: the `int` wraps around to a negative number of pages, and the area shrinks. -/
theorem sbrk_int_max : ¬∀ (vaddrEnd : Nat) (files : List (Option MappedFile)) (calls : List HeapCall),
    (∀ c ∈ calls, InRange c) → ∀ before incr, before ++ [.sbrk incr] <+: calls →
      ((start vaddrEnd files).after before).Sound incr := by
  intro h
  obtain ⟨p, hp, -, hhigh, -⟩ := h 0xffff800000001000 [] [.sbrk 2147483647]
    (fun c hc => by
      obtain rfl := List.mem_singleton.mp hc
      exact ⟨by decide, by decide⟩) [] 2147483647 (List.prefix_refl _)
  have hreturned : (((start 0xffff800000001000 []).after []).sbrk 2147483647).1 = some 0xffff800000001000 := by
    decide
  have hshrunk : (((start 0xffff800000001000 []).after []).sbrk 2147483647).2.regions.dpagingEnd <
      0xffff800000001000 := by decide
  rw [hreturned] at hp
  obtain rfl := Option.some.inj hp
  exact absurd (hhigh.trans_lt hshrunk) (Nat.not_lt.mpr (Nat.le_add_right _ _))

/-- 5000 bytes, two pages, and 4000 bytes, for which the first chunk has no room left. -/
theorem sbrk_sound_two :
    ((start 0xffff800000001000 []).after [.sbrk 5000, .demandPages 2]).Sound 4000 := by
  refine sbrk_sound _ _ [.sbrk 5000, .demandPages 2, .sbrk 4000] (fun c hc => ?_) (fun before c hbefore => ?_)
    [.sbrk 5000, .demandPages 2] 4000 (List.prefix_refl _)
  · simp only [List.mem_cons, List.not_mem_nil, or_false] at hc
    rcases hc with rfl | rfl | rfl <;> decide
  · rw [← List.mem_inits] at hbefore
    simp only [List.inits, List.map_cons, List.map_nil, List.mem_cons, List.not_mem_nil, or_false,
      List.append_eq_nil_iff, List.cons_ne_nil, and_false, false_or] at hbefore
    have hlast (front : List HeapCall) (last : HeapCall) (h : before ++ [c] = front ++ [last]) :
        before = front ∧ c = last := by
      obtain ⟨rfl, hc⟩ := List.append_inj' h rfl
      exact ⟨rfl, List.singleton_inj.mp hc⟩
    rcases hbefore with h | h | h
    · obtain ⟨rfl, rfl⟩ := hlast [] _ h
      decide
    · obtain ⟨rfl, rfl⟩ := hlast [.sbrk 5000] _ h
      decide
    · obtain ⟨rfl, rfl⟩ := hlast [.sbrk 5000, .demandPages 2] _ h
      decide

end AppHeap

end MikanOS
