import MikanOS.Fat.Allocation
import MikanOS.Fat.FileDescriptor

/-! # The contents of a file and what `Read` returns

The bytes of a file are those of the clusters of its chain, one after the other. `Read` returns the
next bytes and leaves the descriptor at the byte behind them. -/

namespace MikanOS.Fat

open Bytes LinkedChain

variable {vol : Volume} {clusters c : Nat} {cs new : List Nat} {buf : Nat → UInt8}

/-- The byte with index `i` of the file whose chain is `cs`. -/
def contents (vol : Volume) (cs : List Nat) (i : Nat) : UInt8 :=
  vol.data (cs.getD (i / vol.bytesPerCluster) 0) (i % vol.bytesPerCluster)

theorem contents_append {i : Nat} (hi : i < cs.length * vol.bytesPerCluster) :
    contents vol (cs ++ new) i = contents vol cs i := by
  have hdiv : i / vol.bytesPerCluster < cs.length := Nat.div_lt_of_lt_mul (Nat.mul_comm .. ▸ hi)
  rw [contents, contents, List.getD_append _ _ _ _ hdiv]

theorem contents_congr {vol' : Volume} (hdata : vol'.data = vol.data)
    (hb : vol'.bytesPerCluster = vol.bytesPerCluster) : contents vol' cs = contents vol cs := by
  funext i
  rw [contents, contents, hdata, hb]

/-- A cluster's bytes are a stretch of the contents. -/
theorem contents_mul_add {k off : Nat} (hk : k < cs.length) (hoff : off < vol.bytesPerCluster) :
    contents vol cs (k * vol.bytesPerCluster + off) = vol.data cs[k] off := by
  have hpos : 0 < vol.bytesPerCluster := by omega
  have hdiv : (k * vol.bytesPerCluster + off) / vol.bytesPerCluster = k := by
    rw [Nat.mul_comm, Nat.mul_add_div hpos, Nat.div_eq_of_lt hoff, Nat.add_zero]
  have hmod : (k * vol.bytesPerCluster + off) % vol.bytesPerCluster = off := by
    rw [Nat.mul_comm, Nat.mul_add_mod, Nat.mod_eq_of_lt hoff]
  rw [contents, hdiv, hmod, List.getD_eq_getElem _ _ hk]

/-- A copy into one cluster is a copy into the contents. -/
theorem contents_setData {k off src n i : Nat} (hnd : cs.Nodup) (hk : k < cs.length)
    (hn : off + n ≤ vol.bytesPerCluster) (hi : i < cs.length * vol.bytesPerCluster) :
    contents (vol.setData cs[k] (memcpy (vol.data cs[k]) off buf src n)) cs i =
      memcpy (contents vol cs) (k * vol.bytesPerCluster + off) buf src n i := by
  have hpos : 0 < vol.bytesPerCluster := Nat.pos_of_ne_zero fun h => by simp [h] at hi
  have hdiv : i / vol.bytesPerCluster < cs.length := Nat.div_lt_of_lt_mul (Nat.mul_comm .. ▸ hi)
  have hsplit := Nat.div_add_mod' i vol.bytesPerCluster
  have hmod := Nat.mod_lt i hpos
  by_cases hik : i / vol.bytesPerCluster = k
  · subst hik
    simp only [contents, Volume.setData, List.getD_eq_getElem _ _ hdiv, Function.update_self, memcpy]
    by_cases hin : off ≤ i % vol.bytesPerCluster ∧ i % vol.bytesPerCluster < off + n
    · rw [if_pos hin, if_pos (by omega)]
      congr 1
      omega
    · rw [if_neg hin, if_neg (by omega)]
  · have hne : cs[i / vol.bytesPerCluster] ≠ cs[k] := fun h =>
      hik ((List.Nodup.getElem_inj_iff hnd).mp h)
    have hout : ¬ (k * vol.bytesPerCluster + off ≤ i ∧
        i < k * vol.bytesPerCluster + off + n) := by
      rintro ⟨hle, hlt⟩
      refine hik (Nat.div_eq_of_lt_le (by omega) ?_)
      rw [Nat.succ_mul]
      omega
    simp only [contents, Volume.setData, List.getD_eq_getElem _ _ hdiv, memcpy, if_neg hout,
      Function.update_of_ne hne]

/-- `NextCluster` goes along the chain and ends with `kEndOfClusterchain`. -/
theorem nextCluster_getElem (h : Chain vol.fat IsEndOfClusterchain c cs) {k : Nat}
    (hk : k < cs.length) : vol.nextCluster cs[k] = cs.getD (k + 1) kEndOfClusterchain := by
  by_cases hk' : k + 1 < cs.length
  · obtain ⟨hnext, hend⟩ := h.next_getElem hk'
    rw [List.getD_eq_getElem _ _ hk']
    simp only [Volume.nextCluster, hnext, if_neg hend]
  · have hlast : cs[k] = cs.getLast h.ne_nil := by
      rw [List.getLast_eq_getElem]
      congr 1
      omega
    rw [List.getD_eq_default _ _ (by omega), hlast]
    simp only [Volume.nextCluster, if_pos h.isEnd_getLast]

/-- A cluster of a chain, or the end mark. -/
theorem Volume.FileChain.getD_ne_zero (h : vol.FileChain clusters c cs) (k : Nat) :
    cs.getD k kEndOfClusterchain ≠ 0 := by
  rcases Nat.lt_or_ge k cs.length with hlt | hge
  · rw [List.getD_eq_getElem _ _ hlt]
    have := (h.in_range _ (List.getElem_mem hlt)).1
    omega
  · rw [List.getD_eq_default _ _ hge]
    decide

namespace FileDescriptor

/-! ## `Read` -/

/-- The descriptor stands at the byte `q` of the chain for reading. -/
structure Reading (vol : Volume) (cs : List Nat) (fd : FileDescriptor) (q : Nat) : Prop where
  rdCluster : fd.rdCluster = cs.getD (q / vol.bytesPerCluster) kEndOfClusterchain
  rdClusterOff : fd.rdClusterOff = q % vol.bytesPerCluster

variable {fd : FileDescriptor} {len q : Nat}

/-- The place of a byte in the chain. -/
private theorem place (hpos : 0 < vol.bytesPerCluster) (hq : q < cs.length * vol.bytesPerCluster) :
    ∃ k, k < cs.length ∧ q / vol.bytesPerCluster = k ∧
      q = k * vol.bytesPerCluster + q % vol.bytesPerCluster ∧
      q % vol.bytesPerCluster < vol.bytesPerCluster :=
  ⟨_, Nat.div_lt_of_lt_mul (Nat.mul_comm .. ▸ hq), rfl, (Nat.div_add_mod' _ _).symm,
    Nat.mod_lt _ hpos⟩

/-- The descriptor after `n` bytes, in the same cluster or at the beginning of the next. -/
theorem Reading.turn {n : Nat} (h : Chain vol.fat IsEndOfClusterchain c cs)
    (hpos : 0 < vol.bytesPerCluster) (H : Reading vol cs fd q)
    (hq : q < cs.length * vol.bytesPerCluster) (hn : fd.rdClusterOff + n ≤ vol.bytesPerCluster) :
    Reading vol cs (
      if fd.rdClusterOff + n = vol.bytesPerCluster then
        { fd with rdCluster := vol.nextCluster fd.rdCluster, rdClusterOff := 0 }
      else { fd with rdClusterOff := fd.rdClusterOff + n }) (q + n) := by
  obtain ⟨k, hk, hdiv, hsplit, hmod⟩ := place hpos hq
  have hoff := H.rdClusterOff
  have hclus : fd.rdCluster = cs[k] := by
    rw [H.rdCluster, hdiv, List.getD_eq_getElem _ _ hk]
  split
  · rename_i hfull
    have hq' : q + n = (k + 1) * vol.bytesPerCluster := by
      rw [Nat.succ_mul]
      omega
    refine ⟨?_, ?_⟩
    · rw [hq', Nat.mul_div_cancel _ hpos, ← nextCluster_getElem h hk, hclus]
    · rw [hq', Nat.mul_mod_left]
  · have hq' : q + n = k * vol.bytesPerCluster + (fd.rdClusterOff + n) := by omega
    have hlt : fd.rdClusterOff + n < vol.bytesPerCluster := by omega
    refine ⟨?_, ?_⟩
    · rw [hq', Nat.mul_comm, Nat.mul_add_div hpos, Nat.div_eq_of_lt hlt, Nat.add_zero, hclus,
        List.getD_eq_getElem _ _ hk]
    · rw [hq', Nat.mul_comm, Nat.mul_add_mod, Nat.mod_eq_of_lt hlt]

/-- The bytes of a turn are those of the contents. -/
theorem Reading.slice_data {n : Nat} (hpos : 0 < vol.bytesPerCluster) (H : Reading vol cs fd q)
    (hq : q < cs.length * vol.bytesPerCluster) (hn : fd.rdClusterOff + n ≤ vol.bytesPerCluster) :
    slice (vol.data fd.rdCluster) fd.rdClusterOff n = slice (contents vol cs) q n := by
  obtain ⟨k, hk, hdiv, hsplit, hmod⟩ := place hpos hq
  have hoff := H.rdClusterOff
  refine slice_congr fun i hi => ?_
  have hqi : q + i = k * vol.bytesPerCluster + (fd.rdClusterOff + i) := by omega
  rw [hqi, contents_mul_add hk (by omega), H.rdCluster, hdiv, List.getD_eq_getElem _ _ hk]

/-- The loop of `Read` copies the bytes from the descriptor's position on. -/
theorem readLoop_spec {fuel total : Nat} (buf : Nat → UInt8) (h : Chain vol.fat IsEndOfClusterchain c cs)
    (hpos : 0 < vol.bytesPerCluster) (H : Reading vol cs fd (q + total)) (htotal : total ≤ len)
    (hlen : q + len ≤ cs.length * vol.bytesPerCluster) (hfuel : len - total < fuel) :
    ∃ buf' fd', readLoop vol len fuel total buf fd = some (len, buf', fd') ∧
      Reading vol cs fd' (q + len) ∧ fd'.rdOff = fd.rdOff ∧ fd'.fatEntry = fd.fatEntry ∧
      (∀ i < total, buf' i = buf i) ∧
      slice buf' total (len - total) = slice (contents vol cs) (q + total) (len - total) := by
  induction fuel generalizing total buf fd with
  | zero => exact absurd hfuel (Nat.not_lt_zero _)
  | succ fuel ih =>
    by_cases hlt : total < len
    · have hq : q + total < cs.length * vol.bytesPerCluster := by omega
      have hmod := H.rdClusterOff ▸ Nat.mod_lt (q + total) hpos
      -- one turn copies up to the end of the request or of the cluster
      generalize hn : min (len - total) (vol.bytesPerCluster - fd.rdClusterOff) = n
      have hnlen : n ≤ len - total := hn ▸ Nat.min_le_left ..
      have hnoff : fd.rdClusterOff + n ≤ vol.bytesPerCluster := by omega
      have hn0 : 0 < n := by omega
      have H₁ := H.turn h hpos hq hnoff
      have hbytes₁ := H.slice_data hpos hq hnoff
      obtain ⟨buf', fd', hloop, hread, hrd, hent, hkeep, hbytes⟩ :=
        ih (memcpy buf total (vol.data fd.rdCluster) fd.rdClusterOff n)
          (Nat.add_assoc .. ▸ H₁) (by omega) (by omega)
      refine ⟨buf', fd', ?_, hread, hrd.trans ?_, hent.trans ?_, fun i hi => ?_, ?_⟩
      · rw [readLoop, if_pos hlt]
        simp only [hn]
        exact hloop
      · split <;> rfl
      · split <;> rfl
      · rw [hkeep i (by omega)]
        simp [memcpy, Nat.not_le.mpr hi]
      · have hrest : len - total = n + (len - (total + n)) := by omega
        have hcopy : slice (memcpy buf total (vol.data fd.rdCluster) fd.rdClusterOff n) total n =
            slice (vol.data fd.rdCluster) fd.rdClusterOff n := slice_memcpy_self ..
        rw [hrest, slice_add, slice_add, hbytes, Nat.add_assoc, ← hbytes₁, ← hcopy]
        refine congrArg (· ++ _) ?_
        exact slice_congr fun i hi => hkeep _ (by omega)
    · obtain rfl : total = len := by omega
      refine ⟨buf, fd, by rw [readLoop, if_neg hlt], H, rfl, rfl, fun _ _ => rfl, ?_⟩
      rw [Nat.sub_self, slice_zero, slice_zero]

/-- The chain of the file of an entry: a chain of data clusters that covers the file's size, or
nothing for an entry without a cluster. -/
structure FileOf (vol : Volume) (clusters : Nat) (r : EntryRef) (cs : List Nat) : Prop where
  chain : cs ≠ [] → vol.FileChain clusters (vol.entry r).firstCluster cs
  none : cs = [] → (vol.entry r).firstCluster = 0
  covers : (vol.entry r).fileSize ≤ cs.length * vol.bytesPerCluster
  size_lt : (vol.entry r).fileSize < 2 ^ 32

/-- The descriptor has read `q` bytes of the file. -/
structure Reader (vol : Volume) (cs : List Nat) (fd : FileDescriptor) (q : Nat) : Prop where
  rdOff : fd.rdOff = q
  start : fd.rdCluster = 0 → q = 0 ∧ fd.rdClusterOff = 0
  reading : fd.rdCluster ≠ 0 → Reading vol cs fd q

theorem Reader.fresh (vol : Volume) (cs : List Nat) (r : EntryRef) :
    Reader vol cs { fatEntry := r } 0 :=
  ⟨rfl, fun _ => ⟨rfl, rfl⟩, fun h => absurd rfl h⟩

/-- `Read` returns the next bytes of the file, as many as are asked for and left. -/
theorem read_spec (hv : vol.WellFormed clusters) (hf : FileOf vol clusters fd.fatEntry cs)
    (H : Reader vol cs fd q) (hq : q ≤ (vol.entry fd.fatEntry).fileSize) (buf : Nat → UInt8)
    (len : Nat) :
    let n := min len ((vol.entry fd.fatEntry).fileSize - q)
    ∃ buf' fd', read vol fd buf len = some (n, buf', fd') ∧ Reader vol cs fd' (q + n) ∧
      fd'.fatEntry = fd.fatEntry ∧ slice buf' 0 n = slice (contents vol cs) q n := by
  intro n
  have hsize := hf.size_lt
  have hcovers := hf.covers
  have hleft : min len (((vol.entry fd.fatEntry).fileSize + 2 ^ 64 - fd.rdOff) % 2 ^ 64) = n := by
    have hmod : ((vol.entry fd.fatEntry).fileSize + 2 ^ 64 - fd.rdOff) % 2 ^ 64 =
        (vol.entry fd.fatEntry).fileSize - q := by
      rw [H.rdOff]
      omega
    rw [hmod]
  generalize hfd₁ : (if fd.rdCluster = 0 then
    { fd with rdCluster := (vol.entry fd.fatEntry).firstCluster } else fd) = fd₁
  have hsame : fd₁.rdOff = fd.rdOff ∧ fd₁.fatEntry = fd.fatEntry := by
    rw [← hfd₁]
    split <;> exact ⟨rfl, rfl⟩
  have hread : ∀ buf' fd', readLoop vol n (n + 1) 0 buf fd₁ = some (n, buf', fd') →
      read vol fd buf len = some (n, buf', { fd' with rdOff := (fd'.rdOff + n) % 2 ^ 64 }) := by
    intro buf' fd' hloop
    simp only [read, hfd₁, hsame.1, hsame.2, hleft, hloop, Option.bind_eq_bind, Option.bind_some]
    rfl
  by_cases hcs : cs = []
  · -- without a cluster the file is empty
    have hsize0 : (vol.entry fd.fatEntry).fileSize = 0 := by simpa [hcs] using hcovers
    have hfirst := hf.none hcs
    have hn0 : n = 0 := by omega
    have hstart : fd₁.rdCluster = 0 → fd₁.rdClusterOff = 0 := by
      rw [← hfd₁]
      split
      · rename_i h0
        exact fun _ => (H.start h0).2
      · rename_i h0
        exact fun h => absurd h h0
    have hreading : fd₁.rdCluster ≠ 0 → Reading vol cs fd₁ q := by
      rw [← hfd₁]
      split
      · exact fun h => absurd hfirst h
      · exact H.reading
    refine ⟨buf, _, hread buf fd₁ (by rw [hn0]; rfl), ⟨?_, ?_, ?_⟩, hsame.2, ?_⟩
    · rw [hsame.1, H.rdOff, Nat.mod_eq_of_lt (by omega)]
    · exact fun h => ⟨by omega, hstart h⟩
    · rw [hn0]
      exact fun h => ⟨(hreading h).1, (hreading h).2⟩
    · rw [hn0, slice_zero, slice_zero]
  · obtain hchain := hf.chain hcs
    have H₁ : Reading vol cs fd₁ q := by
      rw [← hfd₁]
      split
      · rename_i h0
        obtain ⟨rfl, hoff⟩ := H.start h0
        refine ⟨?_, by simp [hoff]⟩
        rw [Nat.zero_div, List.getD_eq_getElem?_getD, ← List.head?_eq_getElem?,
          hchain.chain.head?_eq]
        rfl
      · rename_i h0
        exact H.reading h0
    obtain ⟨buf', fd', hloop, hreading, hrd, hent, -, hbytes⟩ :=
      readLoop_spec buf hchain.chain hv.bytesPerCluster_pos H₁ (Nat.zero_le n)
        (by omega) (Nat.lt_succ_self _)
    refine ⟨buf', _, hread buf' fd' hloop, ⟨?_, ?_, ?_⟩, hent.trans hsame.2, hbytes⟩
    · rw [hrd, hsame.1, H.rdOff, Nat.mod_eq_of_lt (by omega)]
    · exact fun h0 => absurd (hreading.rdCluster.symm.trans h0) (hchain.getD_ne_zero _)
    · exact fun _ => ⟨hreading.1, hreading.2⟩

/-! ## `Load` -/

/-- The loop of `Load` goes along the chain to the cluster of the offset, and at the end of the chain to
`kEndOfClusterchain`. -/
theorem loadLoop_spec {fuel k offset : Nat} (h : Chain vol.fat IsEndOfClusterchain c cs)
    (hpos : 0 < vol.bytesPerCluster) (hk : k + offset / vol.bytesPerCluster ≤ cs.length)
    (hfuel : offset < fuel) :
    loadLoop vol fuel offset (cs.getD k kEndOfClusterchain) =
      some (offset % vol.bytesPerCluster,
        cs.getD (k + offset / vol.bytesPerCluster) kEndOfClusterchain) := by
  induction fuel generalizing k offset with
  | zero => exact absurd hfuel (Nat.not_lt_zero _)
  | succ fuel ih =>
    rw [loadLoop]
    split
    · rename_i hge
      have hdiv := Nat.div_eq_sub_div hpos hge
      have hlt : k < cs.length := by
        have hturns := Nat.div_pos hge hpos
        omega
      have hsum : k + offset / vol.bytesPerCluster =
          k + 1 + (offset - vol.bytesPerCluster) / vol.bytesPerCluster := by
        rw [hdiv, Nat.add_assoc, Nat.add_comm 1]
      rw [List.getD_eq_getElem _ _ hlt, nextCluster_getElem h hlt, ih (hsum ▸ hk) (by omega), hsum,
        ← Nat.mod_eq_sub_mod hge]
    · rename_i hlt
      rw [Nat.mod_eq_of_lt (Nat.not_le.mp hlt), Nat.div_eq_of_lt (Nat.not_le.mp hlt), Nat.add_zero]

/-- The descriptor that `Load` reads with stands at the offset. -/
theorem loadLoop_reader (hv : vol.WellFormed clusters) {r : EntryRef} (hf : FileOf vol clusters r cs)
    {offset : Nat} (hoffset : offset ≤ (vol.entry r).fileSize) :
    ∃ off cluster, loadLoop vol (offset + 1) offset (vol.entry r).firstCluster = some (off, cluster) ∧
      Reader vol cs ⟨r, offset, cluster, off, 0, 0, 0⟩ offset := by
  have hcovers := hf.covers
  have hpos := hv.bytesPerCluster_pos
  by_cases hcs : cs = []
  · -- an empty file without a cluster
    have hzero : offset = 0 := by simpa [hcs] using Nat.le_trans hoffset hcovers
    subst hzero
    refine ⟨0, (vol.entry r).firstCluster, ?_, rfl, fun _ => ⟨rfl, rfl⟩, fun h => absurd (hf.none hcs) h⟩
    rw [loadLoop, if_neg (Nat.not_le.mpr hpos)]
  · have hchain := hf.chain hcs
    have hle : 0 + offset / vol.bytesPerCluster ≤ cs.length := by
      rw [Nat.zero_add]
      exact Nat.div_le_of_le_mul (Nat.mul_comm .. ▸ hoffset.trans hcovers)
    have hfirst : (vol.entry r).firstCluster = cs.getD 0 kEndOfClusterchain := by
      rw [List.getD_eq_getElem?_getD, ← List.head?_eq_getElem?, hchain.chain.head?_eq]
      rfl
    have hloop := loadLoop_spec hchain.chain hpos hle (Nat.lt_succ_self offset)
    rw [Nat.zero_add] at hloop hle
    exact ⟨_, _, hfirst ▸ hloop, rfl, fun h0 => absurd h0 (hchain.getD_ne_zero _), fun _ => ⟨rfl, rfl⟩⟩

/-- `Load` gives the bytes from the offset on. -/
theorem load_spec (hv : vol.WellFormed clusters) (hf : FileOf vol clusters fd.fatEntry cs)
    {offset : Nat} (hoffset : offset ≤ (vol.entry fd.fatEntry).fileSize) (buf : Nat → UInt8) (len : Nat) :
    let n := min len ((vol.entry fd.fatEntry).fileSize - offset)
    ∃ buf', load vol fd buf len offset = some (n, buf') ∧
      slice buf' 0 n = slice (contents vol cs) offset n := by
  obtain ⟨off, cluster, hloop, hreader⟩ := loadLoop_reader hv hf hoffset
  rw [load]
  simp only [hloop, Option.bind_eq_bind, Option.bind_some]
  generalize hfd₁ : (⟨fd.fatEntry, offset, cluster, off, 0, 0, 0⟩ : FileDescriptor) = fd₁ at hreader
  have hent : fd₁.fatEntry = fd.fatEntry := by rw [← hfd₁]
  rw [← hent] at hf hoffset ⊢
  obtain ⟨buf', fd', hread, -, -, hbytes⟩ := read_spec hv hf hreader hoffset buf len
  refine ⟨buf', ?_, hbytes⟩
  rw [hread]
  rfl

/-- `Load` returns at most what it is asked for. -/
theorem readLoop_le {fuel total n : Nat} {buf' : Nat → UInt8} {fd' : FileDescriptor}
    (h : readLoop vol len fuel total buf fd = some (n, buf', fd')) (htotal : total ≤ len) : n ≤ len := by
  induction fuel generalizing total buf fd with
  | zero => cases h
  | succ fuel ih =>
    rw [readLoop] at h
    split at h
    · exact ih h (by omega)
    · cases h
      exact htotal

theorem load_le {offset n : Nat} {buf' : Nat → UInt8} (h : load vol fd buf len offset = some (n, buf')) :
    n ≤ len := by
  obtain ⟨⟨off, cluster⟩, -, h⟩ := Option.bind_eq_some_iff.mp h
  obtain ⟨⟨total, buf₁, fd₁⟩, hread, h⟩ := Option.bind_eq_some_iff.mp h
  cases h
  obtain ⟨⟨total₁, buf₂, fd₂⟩, hloop, h⟩ := Option.bind_eq_some_iff.mp hread
  cases h
  exact (readLoop_le hloop (Nat.zero_le _)).trans (Nat.min_le_left ..)

/-- `Read` calls one after the other, each into a buffer of its own: all bytes that they return. -/
def readAll (vol : Volume) (fd : FileDescriptor) : List ((Nat → UInt8) × Nat) → Option (List UInt8)
  | [] => some []
  | (buf, len) :: calls => do
    let (n, buf, fd) ← read vol fd buf len
    let bytes ← readAll vol fd calls
    pure (slice buf 0 n ++ bytes)

theorem readAll_spec (hv : vol.WellFormed clusters) (hf : FileOf vol clusters fd.fatEntry cs)
    (H : Reader vol cs fd q) (hq : q ≤ (vol.entry fd.fatEntry).fileSize)
    (calls : List ((Nat → UInt8) × Nat)) :
    readAll vol fd calls = some (slice (contents vol cs) q
      (min (calls.map Prod.snd).sum ((vol.entry fd.fatEntry).fileSize - q))) := by
  induction calls generalizing fd q with
  | nil => simp [readAll]
  | cons call calls ih =>
    obtain ⟨buf, len⟩ := call
    obtain ⟨buf', fd', hread, H', hent, hbytes⟩ := read_spec hv hf H hq buf len
    have hrest := ih (hent ▸ hf) H' (by rw [hent]; omega)
    simp only [readAll, hread, hrest, Option.bind_eq_bind, Option.bind_some, hbytes, hent]
    refine congrArg some ?_
    rw [← slice_add]
    refine congrArg (slice _ _) ?_
    simp only [List.map_cons, List.sum_cons]
    omega

end FileDescriptor

end MikanOS.Fat
