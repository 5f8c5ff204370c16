import MikanOS.Fat.Directory
import MikanOS.Fat.Allocation
import MikanOS.Fat.RoundTrip

/-! # A volume without free clusters

The searches for a free cluster know no last cluster and no failure. As long as the data clusters
suffice they take only data clusters; otherwise they go on behind them. -/

namespace MikanOS.Fat

open LinkedChain

namespace Volume

variable {vol vol' : Volume} {clusters c n : Nat} {α : Type}

/-- A request for clusters takes data clusters only, and without enough of them it fails and leaves
the volume as it was. -/
structure SafeRequest (vol : Volume) (clusters request : Nat) (failed : α → Prop)
    (result : Option (α × Volume)) : Prop where
  takes_data : ∀ a vol', result = some (a, vol') →
    ∀ c, vol.fat c = 0 → vol'.fat c ≠ 0 → 2 ≤ c ∧ c < clusters + 2
  full : (vol.freeClusters clusters).card < request → ∃ a, failed a ∧ result = some (a, vol)

/-- A number that is no data cluster, which a function could return as its failure. -/
def NoCluster (clusters c : Nat) : Prop := ¬ (2 ≤ c ∧ c < clusters + 2)

/-! ## Free clusters are left -/

theorem endOfChain_isEnd {fuel : Nat} {t : Nat} (h : vol.endOfChain fuel c = some t) :
    IsEndOfClusterchain (vol.fat t) := by
  induction fuel generalizing c with
  | zero => cases h
  | succ fuel ih =>
    rw [endOfChain] at h
    split at h
    · rename_i hend
      cases h
      exact hend
    · exact ih h

/-- Whatever the table is, the loop takes free data clusters as long as there are enough. -/
theorem extendCluster_takes_data (hv : vol.WellFormed clusters)
    (hn : n ≤ (vol.freeClusters clusters).card) {last : Nat}
    (h : vol.extendCluster c n = some (last, vol')) {x : Nat} (h0 : vol.fat x = 0)
    (hx : vol'.fat x ≠ 0) : 2 ≤ x ∧ x < clusters + 2 := by
  have hin := hv.in_image
  have hnot := hv.not_end
  simp only [extendCluster, Option.bind_eq_bind, Option.bind_eq_some_iff] at h
  obtain ⟨t, ht, ⟨vol₁, current⟩, hloop, h⟩ := h
  have hend := endOfChain_isEnd ht
  have ht0 : vol.fat t ≠ 0 := by
    intro heq
    rw [heq] at hend
    exact absurd hend (by decide)
  obtain ⟨new, vol₂, -, -, hnew, hloop', hset⟩ :=
    extendLoop_spec (Nat.le_refl 2) (by omega : clusters + 2 ≤ 2 + (vol.fatWords - 2)) (by omega)
      (.inl ht0) hn
  rw [hloop'] at hloop
  cases hloop
  cases h
  simp only [hset] at hx
  have hmem : x ∈ new := by
    by_contra hmem
    have hxt : x ≠ t := by
      rintro rfl
      exact ht0 h0
    rw [link_of_notMem hxt hmem] at hx
    exact hx h0
  exact ⟨(hnew x hmem).1, (hnew x hmem).2.1⟩

/-! ## No free clusters are left -/

/-- The last cluster that the loop takes was free. -/
theorem extendLoop_last_free {fuel candidate current last : Nat} (hcand : 2 ≤ candidate)
    (hlim : candidate + fuel ≤ 2 ^ 32) (hcur : vol.fat current ≠ 0 ∨ current < candidate)
    (h : extendLoop vol fuel candidate current (n + 1) = some (vol', last)) :
    candidate ≤ last ∧ vol.fat last = 0 := by
  induction fuel generalizing vol candidate current n with
  | zero => cases h
  | succ fuel ih =>
    rw [extendLoop] at h
    split at h
    · obtain ⟨hle, h0⟩ := ih (by omega) (by omega) (hcur.imp_right (by omega)) h
      exact ⟨by omega, h0⟩
    · rename_i hfree
      cases n with
      | zero =>
        unfold extendLoop at h
        cases fuel with
        | zero => cases h; exact ⟨Nat.le_refl _, not_not.mp hfree⟩
        | succ fuel => cases h; exact ⟨Nat.le_refl _, not_not.mp hfree⟩
      | succ n =>
        obtain ⟨hle, h0⟩ := ih (by omega) (by omega) (.inr (Nat.lt_succ_self candidate)) h
        exact ⟨by omega, (free_setFat_iff (by omega) (by omega) (hcur.imp_right (by omega))).mp h0⟩

/-- `ExtendCluster` never comes back with the table that it was given. -/
theorem extendCluster_ne (hwords : vol.fatWords ≤ 2 ^ 32) {last : Nat}
    (h : vol.extendCluster c (n + 1) = some (last, vol')) : vol.fat last = 0 ∧ vol'.fat last ≠ 0 := by
  simp only [extendCluster, Option.bind_eq_bind, Option.bind_eq_some_iff] at h
  obtain ⟨t, ht, ⟨vol₁, current⟩, hloop, h⟩ := h
  cases h
  have hend := endOfChain_isEnd ht
  have ht0 : vol.fat t ≠ 0 := by
    intro heq
    rw [heq] at hend
    exact absurd hend (by decide)
  cases hfuel : vol.fatWords - 2 with
  | zero =>
    rw [hfuel] at hloop
    cases hloop
  | succ fuel =>
    refine ⟨(extendLoop_last_free (Nat.le_refl 2) (by omega) (.inl ht0) hloop).2, ?_⟩
    simp [setFat, kEndOfClusterchain]

theorem findFree_free {fuel candidate a : Nat} (h : vol.findFree fuel candidate = some a) :
    vol.fat a = 0 ∧ candidate ≤ a ∧ a < candidate + fuel := by
  induction fuel generalizing candidate with
  | zero => cases h
  | succ fuel ih =>
    rw [findFree] at h
    split at h
    · rename_i h0
      cases h
      exact ⟨h0, Nat.le_refl _, by omega⟩
    · obtain ⟨h0, hle, hlt⟩ := ih h
      exact ⟨h0, by omega, by omega⟩

/-! ## The four functions -/

theorem safe_extendCluster_iff (hv : vol.WellFormed clusters) (hwords : vol.fatWords ≤ 2 ^ 32) :
    SafeRequest vol clusters n (NoCluster clusters) (vol.extendCluster c n) ↔
      n ≤ (vol.freeClusters clusters).card := by
  refine ⟨fun h => ?_, fun hn => ⟨fun last vol' hres x => ?_, fun h => absurd hn (Nat.not_le.mpr h)⟩⟩
  · by_contra hn
    obtain ⟨last, -, hres⟩ := h.full (Nat.not_le.mp hn)
    obtain ⟨m, rfl⟩ : ∃ m, n = m + 1 := Nat.exists_eq_succ_of_ne_zero (by omega)
    obtain ⟨h0, hne⟩ := extendCluster_ne hwords hres
    exact hne h0
  · exact extendCluster_takes_data hv hn hres

theorem allocateClusterChain_ne (hwords : vol.fatWords ≤ 2 ^ 32) {first : Nat}
    (h : vol.allocateClusterChain n = some (first, vol')) : vol ≠ vol' := by
  simp only [allocateClusterChain, Option.bind_eq_bind, Option.bind_eq_some_iff] at h
  obtain ⟨a, ha, h⟩ := h
  obtain ⟨h0, -⟩ := findFree_free ha
  split at h
  · rename_i h1
    simp only [Option.bind_eq_some_iff] at h
    obtain ⟨⟨last, vol₁⟩, hext, h⟩ := h
    cases h
    obtain ⟨m, hm⟩ : ∃ m, n - 1 = m + 1 := Nat.exists_eq_succ_of_ne_zero (by omega)
    rw [hm] at hext
    obtain ⟨hlast, hne⟩ := extendCluster_ne (show (vol.setFat first kEndOfClusterchain).fatWords ≤ 2 ^ 32 from hwords) hext
    -- the last cluster is not the first one, which the table holds as taken
    have hla : last ≠ first := by
      rintro rfl
      simp [setFat, kEndOfClusterchain] at hlast
    rintro rfl
    simp only [setFat, Function.update_of_ne hla] at hlast
    exact hne hlast
  · cases h
    intro heq
    have := congrArg (·.fat first) heq
    simp [setFat, kEndOfClusterchain, h0] at this

theorem allocateClusterChain_takes_data (hv : vol.WellFormed clusters)
    (hn : max n 1 ≤ (vol.freeClusters clusters).card) {first : Nat}
    (h : vol.allocateClusterChain n = some (first, vol')) {x : Nat} (h0 : vol.fat x = 0)
    (hx : vol'.fat x ≠ 0) : 2 ≤ x ∧ x < clusters + 2 := by
  obtain ⟨first', rest, fat', -, hmem, hkeep, halloc, -⟩ := allocateClusterChain_spec hv hn
  obtain ⟨-, rfl⟩ : first' = first ∧ _ = vol' := by simpa [halloc] using h
  have hin : x ∈ first' :: rest := by
    by_contra hnot
    exact hx ((hkeep x hnot).trans h0)
  exact (mem_freeClusters.mp (hmem x hin)).1

theorem safe_allocateClusterChain_iff (hv : vol.WellFormed clusters)
    (hwords : vol.fatWords ≤ 2 ^ 32) :
    SafeRequest vol clusters (max n 1) (NoCluster clusters) (vol.allocateClusterChain n) ↔
      max n 1 ≤ (vol.freeClusters clusters).card := by
  refine ⟨fun h => ?_, fun hn => ⟨fun first vol' hres x => ?_, fun h => absurd hn (Nat.not_le.mpr h)⟩⟩
  · by_contra hn
    obtain ⟨first, -, hres⟩ := h.full (Nat.not_le.mp hn)
    exact allocateClusterChain_ne hwords hres rfl
  · exact allocateClusterChain_takes_data hv hn hres

/-- The clusters that `AllocateEntry` has to ask for: one, if no entry of the directory is unused. -/
def entryRequest (vol : Volume) (dirCluster : Nat) : Nat :=
  match vol.findSlot (vol.fatWords + 1) dirCluster with
  | some (.inr _) => 1
  | _ => 0

/-- What `AllocateEntry` does to the table. -/
theorem allocateEntry_fat {res : Option EntryRef} (h : vol.allocateEntry c = some (res, vol')) :
    res ≠ none ∧ (vol.entryRequest c = 0 ∧ vol' = vol ∨ vol.entryRequest c = 1 ∧
      ∃ last new vol₁, vol.extendCluster last 1 = some (new, vol₁) ∧ vol'.fat = vol₁.fat) := by
  simp only [allocateEntry, Option.bind_eq_bind, Option.bind_eq_some_iff] at h
  obtain ⟨slot, hslot, h⟩ := h
  cases slot with
  | inl r =>
    cases h
    exact ⟨Option.some_ne_none _, .inl ⟨by rw [entryRequest, hslot], rfl⟩⟩
  | inr last =>
    simp only [Option.bind_eq_some_iff] at h
    obtain ⟨⟨new, vol₁⟩, hext, h⟩ := h
    cases h
    exact ⟨Option.some_ne_none _, .inr ⟨by rw [entryRequest, hslot], last, new, vol₁, hext, rfl⟩⟩

theorem entryRequest_le_one : vol.entryRequest c ≤ 1 := by
  rw [entryRequest]
  split <;> decide

/-- A request that is served by `AllocateEntry` and leaves the rest of the table alone. -/
theorem safe_of_allocateEntry {result : Option (α × Volume)} {failed : α → Prop}
    (hv : vol.WellFormed clusters) (hwords : vol.fatWords ≤ 2 ^ 32)
    (hres : ∀ a vol', result = some (a, vol') → ∃ res vol₁,
      vol.allocateEntry c = some (res, vol₁) ∧ vol'.fat = vol₁.fat) :
    SafeRequest vol clusters (vol.entryRequest c) failed result ↔
      vol.entryRequest c ≤ (vol.freeClusters clusters).card := by
  refine ⟨fun h => ?_, fun hn => ⟨fun a vol' ha x h0 hx => ?_, fun h => absurd hn (Nat.not_le.mpr h)⟩⟩
  · by_contra hn
    obtain ⟨a, -, ha⟩ := h.full (Nat.not_le.mp hn)
    obtain ⟨res, vol₁, halloc, hfat⟩ := hres a vol ha
    obtain ⟨-, ⟨h0, -⟩ | ⟨h1, last, new, vol₂, hext, hfat'⟩⟩ := allocateEntry_fat halloc
    · omega
    · obtain ⟨h0, hne⟩ := extendCluster_ne hwords hext
      rw [← hfat', ← hfat] at hne
      exact hne h0
  · obtain ⟨res, vol₁, halloc, hfat⟩ := hres a vol' ha
    rw [hfat] at hx
    obtain ⟨-, ⟨-, rfl⟩ | ⟨h1, last, new, vol₂, hext, hfat'⟩⟩ := allocateEntry_fat halloc
    · exact absurd h0 hx
    · rw [hfat'] at hx
      exact extendCluster_takes_data hv (h1 ▸ hn) hext h0 hx

theorem safe_allocateEntry_iff (hv : vol.WellFormed clusters) (hwords : vol.fatWords ≤ 2 ^ 32) :
    SafeRequest vol clusters (vol.entryRequest c) (· = none) (vol.allocateEntry c) ↔
      vol.entryRequest c ≤ (vol.freeClusters clusters).card :=
  safe_of_allocateEntry hv hwords fun _ _ h => ⟨_, _, h, rfl⟩

/-- The clusters that `CreateFile` has to ask for, in the directory that the path names. -/
def createRequest (vol : Volume) (path : Path) : Nat :=
  match vol.parentCluster path with
  | some (.ok dirCluster) => vol.entryRequest dirCluster
  | _ => 0

/-- `CreateFile` reports a full volume, to the application as `ENOSPC`. -/
def ReportsFull (file : WithError (Option EntryRef)) : Prop :=
  file = ⟨none, .kNoEnoughMemory⟩ ∧ Errno.ofCreateFile file = (none, .ENOSPC)

theorem safe_createFile_iff (hv : vol.WellFormed clusters) (hwords : vol.fatWords ≤ 2 ^ 32)
    (path : Path) :
    SafeRequest vol clusters (vol.createRequest path) ReportsFull (vol.createFile path) ↔
      vol.createRequest path ≤ (vol.freeClusters clusters).card := by
  cases hparent : vol.parentCluster path with
  | none =>
    have hreq : vol.createRequest path = 0 := by rw [createRequest, hparent]
    have hnone : vol.createFile path = none := by simp [createFile, hparent]
    rw [hreq, hnone]
    exact ⟨fun _ => Nat.zero_le _, fun _ => ⟨fun _ _ h => absurd h (by simp),
      fun h => absurd h (Nat.not_lt_zero _)⟩⟩
  | some parent =>
    cases parent with
    | error err =>
      have hreq : vol.createRequest path = 0 := by rw [createRequest, hparent]
      have hsome : vol.createFile path = some (⟨none, err⟩, vol) := by simp [createFile, hparent]
      rw [hreq, hsome]
      refine ⟨fun _ => Nat.zero_le _, fun _ => ⟨fun a vol' h x h0 hx => ?_,
        fun h => absurd h (Nat.not_lt_zero _)⟩⟩
      cases h
      exact absurd h0 hx
    | ok dirCluster =>
      have hreq : vol.createRequest path = vol.entryRequest dirCluster := by
        rw [createRequest, hparent]
      rw [hreq]
      refine safe_of_allocateEntry hv hwords fun a vol' h => ?_
      simp only [createFile, hparent, Option.bind_eq_bind, Option.bind_some,
        Option.bind_eq_some_iff] at h
      obtain ⟨⟨dir, vol₁⟩, halloc, h⟩ := h
      refine ⟨dir, vol₁, halloc, ?_⟩
      cases dir with
      | none => cases h; rfl
      | some r => cases h; rfl

/-- On any table: `ExtendCluster`, `AllocateClusterChain`, `AllocateEntry` and `CreateFile` keep to the
data clusters and report a full volume if and only if enough data clusters are free. -/
theorem requests_safe_iff (hv : vol.WellFormed clusters) (hwords : vol.fatWords ≤ 2 ^ 32) :
    (∀ c n, SafeRequest vol clusters n (NoCluster clusters) (vol.extendCluster c n) ↔
      n ≤ (vol.freeClusters clusters).card) ∧
    (∀ n, SafeRequest vol clusters (max n 1) (NoCluster clusters) (vol.allocateClusterChain n) ↔
      max n 1 ≤ (vol.freeClusters clusters).card) ∧
    (∀ c, SafeRequest vol clusters (vol.entryRequest c) (· = none) (vol.allocateEntry c) ↔
      vol.entryRequest c ≤ (vol.freeClusters clusters).card) ∧
    ∀ path, SafeRequest vol clusters (vol.createRequest path) ReportsFull (vol.createFile path) ↔
      vol.createRequest path ≤ (vol.freeClusters clusters).card :=
  ⟨fun _ _ => safe_extendCluster_iff hv hwords, fun _ => safe_allocateClusterChain_iff hv hwords,
    fun _ => safe_allocateEntry_iff hv hwords, safe_createFile_iff hv hwords⟩

/-- A volume of three data clusters, all of them taken, whose table has room for one entry more. -/
def fullVolume : Volume where
  bytesPerCluster := 512
  rootCluster := 2
  fatWords := 6
  fat := fun c => if c < 5 then kEndOfClusterchain else 0
  data := fun _ _ => 0
  entry := fun _ => ⟨.replicate 11 0x41, 0, 0, 0, 0⟩

theorem fullVolume_wellFormed : fullVolume.WellFormed 3 := ⟨by decide, by decide, by decide⟩

theorem requests_safe_iff_fullVolume : fullVolume.WellFormed 3 ∧
    ∀ n, SafeRequest fullVolume 3 (max n 1) (NoCluster 3) (fullVolume.allocateClusterChain n) ↔
      max n 1 ≤ (fullVolume.freeClusters 3).card :=
  ⟨fullVolume_wellFormed, (requests_safe_iff fullVolume_wellFormed (by decide)).2.1⟩

/-- For a file in the full root directory `CreateFile` takes cluster 5, which does not exist, and
reports success. -/
theorem not_requests_safe_fullVolume :
    (fullVolume.createFile [0x61]).map (fun (file, vol) => (file, vol.fat 2, vol.fat 5)) =
      some (⟨some ⟨5, 0⟩, .kSuccess⟩, 5, kEndOfClusterchain) ∧
    (fullVolume.freeClusters 3).card < fullVolume.createRequest [0x61] ∧
    ¬ SafeRequest fullVolume 3 (fullVolume.createRequest [0x61]) ReportsFull
      (fullVolume.createFile [0x61]) := by
  have hcreate : (fullVolume.createFile [0x61]).map
      (fun (file, vol) => (file, vol.fat 2, vol.fat 5)) =
        some (⟨some ⟨5, 0⟩, .kSuccess⟩, 5, kEndOfClusterchain) := by decide +kernel
  have hfull : (fullVolume.freeClusters 3).card < fullVolume.createRequest [0x61] := by
    decide +kernel
  refine ⟨hcreate, hfull, fun h => ?_⟩
  obtain ⟨file, ⟨rfl, -⟩, hres⟩ := h.full hfull
  rw [hres] at hcreate
  cases hcreate

end Volume

end MikanOS.Fat
