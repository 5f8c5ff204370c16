import MikanOS.Fat.Contents

/-! # What `Write` does

`Write` stands at a byte of the chain, possibly behind the last byte of a cluster, and goes to the
next cluster, which it adds to the chain if needed, when there is more to write. -/

namespace MikanOS.Fat.FileDescriptor

open Bytes LinkedChain

variable {vol vol' : Volume} {clusters p len : Nat} {cs cs' : List Nat} {fd fd' : FileDescriptor}

/-- The descriptor stands at the byte `p` of the chain for writing. -/
structure Writing (vol : Volume) (clusters : Nat) (fd : FileDescriptor) (cs : List Nat) (p : Nat) :
    Prop where
  file : vol.FileChain clusters (vol.entry fd.fatEntry).firstCluster cs
  cursor : ∃ (k : Nat) (hk : k < cs.length), fd.wrCluster = cs[k] ∧
    k * vol.bytesPerCluster + fd.wrClusterOff = p
  off_le : fd.wrClusterOff ≤ vol.bytesPerCluster

/-- The chain of a file has grown from `cs` to `cs'`, at the cost of free clusters. -/
structure Grows (vol vol' : Volume) (clusters : Nat) (cs cs' : List Nat) : Prop where
  bytesPerCluster : vol'.bytesPerCluster = vol.bytesPerCluster
  fatWords : vol'.fatWords = vol.fatWords
  grows : cs <+: cs'
  total : cs'.length + (vol'.freeClusters clusters).card =
    cs.length + (vol.freeClusters clusters).card

namespace Grows

theorem refl (vol : Volume) (clusters : Nat) (cs : List Nat) : Grows vol vol clusters cs cs :=
  ⟨rfl, rfl, List.prefix_refl _, rfl⟩

theorem trans {vol'' : Volume} {cs'' : List Nat} (h : Grows vol vol' clusters cs cs')
    (h' : Grows vol' vol'' clusters cs' cs'') : Grows vol vol'' clusters cs cs'' :=
  ⟨h'.1.trans h.1, h'.2.trans h.2, h.3.trans h'.3, h'.4.trans h.4⟩

theorem wellFormed (h : Grows vol vol' clusters cs cs') (hv : vol.WellFormed clusters) :
    vol'.WellFormed clusters :=
  hv.congr h.bytesPerCluster h.fatWords

end Grows

/-- What changes when the file of the entry `r` is written and its chain grows from `cs` to `cs'`: entries of
the table that were free and the old end of the chain, bytes of the chain's clusters, and the entry `r`. -/
structure Frame (clusters : Nat) (r : EntryRef) (vol vol' : Volume) (cs cs' : List Nat) : Prop where
  rootCluster : vol'.rootCluster = vol.rootCluster
  subset : cs ⊆ cs'
  new : ∀ x ∈ cs', x ∉ cs → x ∈ vol.freeClusters clusters
  fat : ∀ x, vol'.fat x ≠ vol.fat x →
    x ∈ vol.freeClusters clusters ∨ x ∈ cs ∧ IsEndOfClusterchain (vol.fat x)
  data : ∀ x, vol'.data x ≠ vol.data x → x ∈ cs'
  entry : ∀ r', r' ≠ r → vol'.entry r' = vol.entry r'
  name : (vol'.entry r).name = (vol.entry r).name ∧ (vol'.entry r).attr = (vol.entry r).attr

namespace Frame

theorem refl (clusters : Nat) (r : EntryRef) (vol : Volume) (cs : List Nat) : Frame clusters r vol vol cs cs where
  rootCluster := rfl
  subset _ h := h
  new _ h h' := absurd h h'
  fat _ h := absurd rfl h
  data _ h := absurd rfl h
  entry _ _ := rfl
  name := ⟨rfl, rfl⟩

theorem trans {r : EntryRef} {vol'' : Volume} {cs'' : List Nat} (h : Frame clusters r vol vol' cs cs')
    (h' : Frame clusters r vol' vol'' cs' cs'') : Frame clusters r vol vol'' cs cs'' := by
  -- what is free after the first step was free before it
  have hfree : ∀ x ∈ vol'.freeClusters clusters, vol'.fat x = vol.fat x → x ∈ vol.freeClusters clusters := by
    intro x hx heq
    rw [Volume.mem_freeClusters] at hx ⊢
    exact ⟨hx.1, heq ▸ hx.2⟩
  refine ⟨h'.rootCluster.trans h.rootCluster, fun x hx => h'.subset (h.subset hx), fun x hx hcs => ?_,
    fun x hx => ?_, fun x hx => ?_, fun r' hr' => (h'.entry r' hr').trans (h.entry r' hr'),
    h'.name.1.trans h.name.1, h'.name.2.trans h.name.2⟩
  · by_cases hcs' : x ∈ cs'
    · exact h.new x hcs' hcs
    · have hx' := h'.new x hx hcs'
      by_cases heq : vol'.fat x = vol.fat x
      · exact hfree x hx' heq
      · exact (h.fat x heq).resolve_right fun h => hcs h.1
  · by_cases heq : vol'.fat x = vol.fat x
    · rw [← heq] at hx
      rcases h'.fat x hx with hx' | ⟨hcs', hend⟩
      · exact .inl (hfree x hx' heq)
      · by_cases hcs : x ∈ cs
        · exact .inr ⟨hcs, heq ▸ hend⟩
        · exact .inl (h.new x hcs' hcs)
    · exact h.fat x heq
  · by_cases heq : vol'.data x = vol.data x
    · rw [← heq] at hx
      exact h'.data x hx
    · exact h'.subset (h.data x heq)

end Frame

theorem le_numCluster_mul (hpos : 0 < vol.bytesPerCluster) (bytes : Nat) :
    bytes ≤ numCluster vol bytes * vol.bytesPerCluster := by
  have h := Nat.lt_div_mul_add hpos (a := bytes + vol.bytesPerCluster - 1)
  rw [numCluster]
  omega

theorem numCluster_le_iff (hpos : 0 < vol.bytesPerCluster) {bytes n : Nat} :
    numCluster vol bytes ≤ n ↔ bytes ≤ n * vol.bytesPerCluster := by
  rw [numCluster, Nat.div_le_iff_le_mul_add_pred hpos]
  rw [Nat.mul_comm]
  omega

/-- The advance leaves the descriptor in front of a byte of a cluster of the chain. -/
theorem advance_spec {rest : Nat} (hv : vol.WellFormed clusters)
    (H : Writing vol clusters fd cs p) (hrest : 0 < rest)
    (hfree : p + rest ≤ (cs.length + (vol.freeClusters clusters).card) * vol.bytesPerCluster) :
    ∃ vol' fd' cs', advance vol fd rest = some (vol', fd') ∧
      Writing vol' clusters fd' cs' p ∧ fd'.wrClusterOff < vol.bytesPerCluster ∧
      Grows vol vol' clusters cs cs' ∧ vol'.data = vol.data ∧
      fd'.fatEntry = fd.fatEntry ∧ fd'.wrOff = fd.wrOff ∧ Frame clusters fd.fatEntry vol vol' cs cs' := by
  have hpos := hv.bytesPerCluster_pos
  obtain ⟨k, hk, hcl, hp⟩ := H.cursor
  by_cases hoff : fd.wrClusterOff = vol.bytesPerCluster
  · have hnext := nextCluster_getElem H.file.chain hk
    have hp' : (k + 1) * vol.bytesPerCluster = p := by
      rw [Nat.succ_mul]
      omega
    by_cases hlast : k + 1 < cs.length
    · -- the chain goes on
      rw [List.getD_eq_getElem _ _ hlast] at hnext
      have hne : cs[k + 1] ≠ kEndOfClusterchain := by
        have := (H.file.in_range _ (List.getElem_mem hlast)).2
        have := hv.not_end
        simp only [kEndOfClusterchain]
        omega
      refine ⟨vol, { fd with wrCluster := cs[k + 1], wrClusterOff := 0 }, cs, ?_,
        ⟨H.file, ⟨k + 1, hlast, rfl, hp'⟩, Nat.zero_le _⟩, hpos, .refl _ _ _, rfl, rfl, rfl, .refl ..⟩
      simp only [advance, if_pos hoff, hcl, hnext, if_neg hne]
    · -- the last cluster is full: the chain is extended
      have hklen : k + 1 = cs.length := by omega
      have hcs : cs.take k ++ [cs[k]] = cs := by
        rw [List.take_append_getElem, hklen, List.take_length]
      have hn : numCluster vol rest ≤ (vol.freeClusters clusters).card := by
        rw [numCluster_le_iff hpos]
        rw [Nat.add_mul, ← hklen, hp'] at hfree
        omega
      have hn0 : numCluster vol rest ≠ 0 := by
        intro h0
        have := (numCluster_le_iff hpos).mp (Nat.le_of_eq h0)
        omega
      obtain ⟨new, hlen, hsub, hext, hchain, hfree', hcard⟩ :=
        Volume.extendCluster_spec hv (hcs ▸ H.file) (List.mem_append_right _ List.mem_cons_self) hn
      have hcs' : cs.take k ++ cs[k] :: new = cs ++ new := by
        rw [← List.singleton_append, ← List.append_assoc, hcs]
      rw [hcs'] at hchain
      have hk' : k < (cs ++ new).length := by simp; omega
      have hk₁ : k + 1 < (cs ++ new).length := by simp; omega
      have hnext' := nextCluster_getElem hchain.chain hk'
      rw [List.getD_eq_getElem _ _ hk₁, List.getElem_append_left hk] at hnext'
      refine ⟨_, { fd with wrCluster := (cs ++ new)[k + 1], wrClusterOff := 0 }, cs ++ new, ?_,
        ⟨hchain, ⟨k + 1, hk₁, rfl, hp'⟩, Nat.zero_le _⟩, hpos,
        ⟨rfl, rfl, List.prefix_append _ _, ?_⟩, rfl, rfl, rfl,
        ⟨rfl, List.subset_append_left _ _, fun x hx hcs => ?_, fun x hx => ?_, fun x hx => absurd rfl hx,
          fun _ _ => rfl, rfl, rfl⟩⟩
      · rw [List.getD_eq_default _ _ (Nat.not_lt.mp hlast)] at hnext
        simp only [advance, if_pos hoff, hcl, hnext, if_true, hext, Option.bind_eq_bind,
          Option.bind_some, hnext']
        rfl
      · rw [List.length_append, hlen, ← hcard]
        omega
      · exact hsub (List.mem_toFinset.mpr ((List.mem_append.mp hx).resolve_left hcs))
      · by_cases hnew : x ∈ new
        · exact .inl (hsub (List.mem_toFinset.mpr hnew))
        · by_cases hxk : x = cs[k]
          · have hend := H.file.chain.isEnd_getLast
            rw [List.getLast_eq_getElem] at hend
            simp only [← hklen, Nat.add_sub_cancel] at hend
            exact .inr ⟨hxk ▸ List.getElem_mem hk, hxk ▸ hend⟩
          · exact absurd (link_of_notMem hxk hnew) hx
  · refine ⟨vol, fd, cs, by rw [advance, if_neg hoff], H, ?_, .refl _ _ _, rfl, rfl, rfl, .refl ..⟩
    exact Nat.lt_of_le_of_ne H.off_le hoff

/-- One turn of the loop of `Write` copies `n` bytes into the cluster. -/
theorem Writing.turn {n : Nat} (H : Writing vol clusters fd cs p) (buf : Nat → UInt8) (src : Nat)
    (hn : fd.wrClusterOff + n ≤ vol.bytesPerCluster) :
    let vol' := vol.setData fd.wrCluster
      (memcpy (vol.data fd.wrCluster) fd.wrClusterOff buf src n)
    Writing vol' clusters { fd with wrClusterOff := fd.wrClusterOff + n } cs (p + n) ∧
      ∀ i < cs.length * vol.bytesPerCluster,
        contents vol' cs i = memcpy (contents vol cs) p buf src n i := by
  obtain ⟨k, hk, hcl, hp⟩ := H.cursor
  refine ⟨⟨⟨H.file.chain, H.file.in_range⟩, ⟨k, hk, hcl, ?_⟩, hn⟩, fun i hi => ?_⟩
  · show k * vol.bytesPerCluster + (fd.wrClusterOff + n) = p + n
    omega
  · rw [hcl, ← hp]
    exact contents_setData H.file.chain.nodup hk hn hi

theorem Writing.mod_eq (H : Writing vol clusters fd cs p)
    (hoff : fd.wrClusterOff < vol.bytesPerCluster) : fd.wrClusterOff = p % vol.bytesPerCluster := by
  obtain ⟨k, hk, hcl, hp⟩ := H.cursor
  rw [← hp, Nat.mul_comm, Nat.mul_add_mod, Nat.mod_eq_of_lt hoff]

theorem Writing.le (H : Writing vol clusters fd cs p) :
    p ≤ cs.length * vol.bytesPerCluster := by
  obtain ⟨k, hk, hcl, hp⟩ := H.cursor
  have hoff := H.off_le
  have := Nat.mul_le_mul_right vol.bytesPerCluster (Nat.succ_le_of_lt hk)
  rw [Nat.succ_mul] at this
  omega

/-- The position lies in the chain as long as the descriptor is in front of a byte. -/
theorem Writing.lt_of_off_lt (H : Writing vol clusters fd cs p)
    (hoff : fd.wrClusterOff < vol.bytesPerCluster) :
    p + (vol.bytesPerCluster - fd.wrClusterOff) ≤ cs.length * vol.bytesPerCluster := by
  obtain ⟨k, hk, hcl, hp⟩ := H.cursor
  have := Nat.mul_le_mul_right vol.bytesPerCluster (Nat.succ_le_of_lt hk)
  rw [Nat.succ_mul] at this
  omega

/-- `len` bytes from the byte `p` of a file on stay in one cluster or end with one. -/
def EndsInCluster (bytesPerCluster p len : Nat) : Prop :=
  len = 0 ∨ p % bytesPerCluster + len ≤ bytesPerCluster ∨ (p + len) % bytesPerCluster = 0

/-- What a turn copies when the whole request stays in one cluster or ends with one: the bytes up to
the end of the request or of the cluster. -/
private theorem turn_bytes {b total : Nat} (hb : 0 < b) (hlt : total < len)
    (hexact : total = 0 ∧ p % b + len ≤ b ∨ (p + len) % b = 0) :
    let n := min len (b - (p + total) % b)
    0 < n ∧ n ≤ len - total ∧ (total + n < len → (p + len) % b = 0) := by
  intro n
  have hmod := Nat.mod_lt (p + total) hb
  rcases hexact with ⟨rfl, hone⟩ | hend
  · have hn : n = len := by
      simp only [n, Nat.add_zero]
      omega
    exact ⟨by omega, by omega, fun h => by omega⟩
  · have hle : b - (p + total) % b ≤ len - total := by
      -- the rest of the request ends where a cluster ends
      have hdvd : b ∣ p + total - (p + total) % b := Nat.dvd_sub_mod _
      have hdvd' := (Nat.dvd_sub_iff_right (by omega) (Nat.dvd_of_mod_eq_zero hend)).mpr hdvd
      have := Nat.le_of_dvd (by omega) hdvd'
      have := Nat.mod_le (p + total) b
      omega
    exact ⟨by omega, by omega, fun _ => hend⟩

/-- The loop of `Write` for a request that stays in one cluster or ends with one. -/
theorem writeLoop_spec {fuel total : Nat} (buf : Nat → UInt8) (hv : vol.WellFormed clusters)
    (H : Writing vol clusters fd cs (p + total)) (htotal : total ≤ len)
    (hexact : total < len → total = 0 ∧ p % vol.bytesPerCluster + len ≤ vol.bytesPerCluster ∨
      (p + len) % vol.bytesPerCluster = 0)
    (hfree : p + len ≤ (cs.length + (vol.freeClusters clusters).card) * vol.bytesPerCluster)
    (hfuel : len - total < fuel) :
    ∃ vol' fd' cs', writeLoop buf len fuel total vol fd = some (len, vol', fd') ∧
      Writing vol' clusters fd' cs' (p + len) ∧ Grows vol vol' clusters cs cs' ∧
      fd'.fatEntry = fd.fatEntry ∧ fd'.wrOff = fd.wrOff ∧
      (∀ i < p + total, contents vol' cs' i = contents vol cs i) ∧
      slice (contents vol' cs') (p + total) (len - total) = slice buf total (len - total) := by
  induction fuel generalizing total vol fd cs with
  | zero => exact absurd hfuel (Nat.not_lt_zero _)
  | succ fuel ih =>
    by_cases hlt : total < len
    · obtain ⟨vol₁, fd₁, cs₁, hadv, H₁, hoff, hgrow, hdata, hent, hwr, -⟩ :=
        advance_spec hv H (Nat.sub_pos_of_lt hlt) (by omega)
      have hb := hgrow.bytesPerCluster
      have hoff' : fd₁.wrClusterOff < vol₁.bytesPerCluster := hb ▸ hoff
      obtain ⟨hn0, hnle, hnext⟩ := turn_bytes hv.bytesPerCluster_pos hlt (hexact hlt)
      have hmod := H₁.mod_eq hoff'
      have hin := H₁.lt_of_off_lt hoff'
      rw [← hb, ← hmod] at hn0 hnle hnext
      generalize hn : min len (vol₁.bytesPerCluster - fd₁.wrClusterOff) = n at hn0 hnle hnext
      have hnoff : fd₁.wrClusterOff + n ≤ vol₁.bytesPerCluster := by omega
      obtain ⟨H₂, hcont⟩ := H₁.turn buf total hnoff
      have hle := H.le
      obtain ⟨new, rfl⟩ := hgrow.grows
      obtain ⟨vol', fd', cs', hloop, H', hgrow', hent', hwr', hkeep, hbytes⟩ :=
        ih ((hgrow.wellFormed hv).setData fd₁.wrCluster
            (memcpy (vol₁.data fd₁.wrCluster) fd₁.wrClusterOff buf total n))
          (Nat.add_assoc .. ▸ H₂) (by omega)
          (fun h => .inr (hnext h)) (by
            show p + len ≤ ((cs ++ new).length + (vol₁.freeClusters clusters).card) *
              vol₁.bytesPerCluster
            rw [hgrow.total, hb]
            exact hfree) (by omega)
      refine ⟨vol', fd', cs', ?_, H', hgrow.trans ⟨hgrow'.1, hgrow'.2, hgrow'.3, hgrow'.4⟩,
        hent'.trans hent, hwr'.trans hwr, fun i hi => ?_, ?_⟩
      · rw [writeLoop, if_pos hlt, hadv]
        simp only [Option.bind_eq_bind, Option.bind_some, hn]
        exact hloop
      · rw [hkeep i (by omega), hcont i (by omega)]
        simp only [memcpy, if_neg (not_and_of_not_left _ (Nat.not_le.mpr hi))]
        rw [contents_congr hdata hb, contents_append (by omega)]
      · have hrest : len - total = n + (len - (total + n)) := by omega
        rw [hrest, slice_add, slice_add, Nat.add_assoc p, hbytes]
        refine congrArg (· ++ _) (slice_congr fun i hi => ?_)
        rw [hkeep _ (by omega), hcont _ (by omega)]
        simp [memcpy, hi]
    · obtain rfl : total = len := by omega
      refine ⟨vol, fd, cs, by rw [writeLoop, if_neg hlt], H, .refl _ _ _, rfl, rfl,
        fun _ _ => rfl, ?_⟩
      rw [Nat.sub_self, slice_zero, slice_zero]

/-- The descriptor of a file with the chain `cs` has written `p` bytes; it may have no cluster
yet. -/
structure Writer (vol : Volume) (clusters : Nat) (fd : FileDescriptor) (cs : List Nat) (p : Nat) :
    Prop where
  wrOff : fd.wrOff = p
  closed : fd.wrCluster = 0 → p = 0 ∧ fd.wrClusterOff = 0 ∧
    (cs = [] ∧ (vol.entry fd.fatEntry).firstCluster = 0 ∨
      vol.FileChain clusters (vol.entry fd.fatEntry).firstCluster cs)
  opened : fd.wrCluster ≠ 0 → Writing vol clusters fd cs p

theorem Writer.le (H : Writer vol clusters fd cs p) : p ≤ cs.length * vol.bytesPerCluster := by
  by_cases h0 : fd.wrCluster = 0
  · rw [(H.closed h0).1]
    exact Nat.zero_le _
  · exact (H.opened h0).le

theorem Writer.fileOf (H : Writer vol clusters fd cs p)
    (hsize : (vol.entry fd.fatEntry).fileSize = p) (hp : p < 2 ^ 32) :
    FileOf vol clusters fd.fatEntry cs := by
  have hcovers := H.le
  rw [← hsize] at hcovers hp
  by_cases h0 : fd.wrCluster = 0
  · obtain ⟨-, -, ⟨rfl, hfirst⟩ | hchain⟩ := H.closed h0
    · exact ⟨fun h => absurd rfl h, fun _ => hfirst, hcovers, hp⟩
    · exact ⟨fun _ => hchain, fun h => absurd h hchain.chain.ne_nil, hcovers, hp⟩
  · have hchain := (H.opened h0).file
    exact ⟨fun _ => hchain, fun h => absurd h hchain.chain.ne_nil, hcovers, hp⟩

/-- At the head of a chain. -/
private theorem Writing.head {c : Nat} (h : vol.FileChain clusters c cs)
    (hc : c = (vol.entry fd.fatEntry).firstCluster) (hoff : fd.wrClusterOff = 0) :
    Writing vol clusters { fd with wrCluster := c } cs 0 := by
  subst hc
  have hhead := h.chain.head?_eq
  rw [List.head?_eq_getElem?] at hhead
  obtain ⟨hlt, h0⟩ := List.getElem?_eq_some_iff.mp hhead
  refine ⟨h, ⟨0, hlt, h0.symm, ?_⟩, ?_⟩
  · simp [hoff]
  · simp [hoff]

/-- The beginning of `Write` leaves the descriptor at its position in the chain. -/
theorem openWrite_spec (hv : vol.WellFormed clusters) (H : Writer vol clusters fd cs p)
    (hfree : max (numCluster vol (p + len)) 1 ≤ cs.length + (vol.freeClusters clusters).card) :
    ∃ vol' fd' cs', openWrite vol fd len = some (vol', fd') ∧ Writing vol' clusters fd' cs' p ∧
      Grows vol vol' clusters cs cs' ∧ vol'.data = vol.data ∧ fd'.fatEntry = fd.fatEntry ∧
      fd'.wrOff = fd.wrOff ∧ Frame clusters fd.fatEntry vol vol' cs cs' := by
  by_cases h0 : fd.wrCluster = 0
  · obtain ⟨rfl, hoff, ⟨rfl, hfirst⟩ | hchain⟩ := H.closed h0
    · rw [Nat.zero_add, List.length_nil, Nat.zero_add] at hfree
      obtain ⟨first, rest, fat', hlen, hnew, hfat, halloc, hfile, hcard⟩ :=
        Volume.allocateClusterChain_spec hv hfree
      have hlt : first < 2 ^ 32 := by
        have := (hfile.in_range first List.mem_cons_self).2
        have := hv.not_end
        omega
      have hfile' : (Volume.setEntry { vol with fat := fat' } fd.fatEntry
          ((vol.entry fd.fatEntry).setFirstCluster first)).FileChain clusters first
            (first :: rest) := ⟨hfile.chain, hfile.in_range⟩
      refine ⟨_, { fd with wrCluster := first }, first :: rest, ?_, Writing.head hfile' ?_ hoff,
        ⟨rfl, rfl, List.nil_prefix, ?_⟩, rfl, rfl, rfl,
        ⟨rfl, List.nil_subset _, fun x hx _ => hnew x hx, fun x hx => ?_, fun x hx => absurd rfl hx,
          fun r' hr' => Function.update_of_ne hr' _ _, ?_⟩⟩
      · simp only [openWrite, if_pos h0, hfirst, ne_eq, not_true_eq_false, if_false, halloc,
          Option.bind_eq_bind, Option.bind_some]
        rfl
      · simp [Volume.setEntry, DirectoryEntry.firstCluster_setFirstCluster _ hlt]
      · show (first :: rest).length + (Volume.freeClusters { vol with fat := fat' } clusters).card = _
        rw [List.length_cons, List.length_nil]
        omega
      · by_cases hmem : x ∈ first :: rest
        · exact .inl (hnew x hmem)
        · exact absurd (hfat x hmem) hx
      · simp only [Volume.setEntry, Function.update_self]
        exact ⟨rfl, rfl⟩
    · have hne : (vol.entry fd.fatEntry).firstCluster ≠ 0 := by
        have := (hchain.in_range _ (List.mem_of_mem_head? hchain.chain.head?_eq)).1
        omega
      refine ⟨vol, _, cs, ?_, Writing.head hchain rfl hoff, .refl _ _ _, rfl, rfl, rfl, .refl ..⟩
      rw [openWrite, if_pos h0, if_pos hne]
  · exact ⟨vol, fd, cs, by rw [openWrite, if_neg h0], H.opened h0, .refl _ _ _, rfl, rfl, rfl, .refl ..⟩

theorem Writing.wrCluster_ne_zero (H : Writing vol clusters fd cs p) : fd.wrCluster ≠ 0 := by
  obtain ⟨k, hk, hcl, -⟩ := H.cursor
  have := (H.file.in_range _ (List.getElem_mem hk)).1
  omega

/-- The end of `Write` sets the offset of the descriptor and the size of the file. -/
theorem Writing.close (H : Writing vol clusters fd cs p) (size : Nat) :
    Writer (vol.setEntry fd.fatEntry { vol.entry fd.fatEntry with fileSize := size }) clusters
      { fd with wrOff := p } cs p := by
  refine ⟨rfl, fun h => absurd h H.wrCluster_ne_zero, fun _ => ⟨?_, H.cursor, H.off_le⟩⟩
  have hfirst : ((vol.setEntry fd.fatEntry { vol.entry fd.fatEntry with fileSize := size }).entry
      fd.fatEntry).firstCluster = (vol.entry fd.fatEntry).firstCluster := by
    simp [Volume.setEntry, DirectoryEntry.firstCluster]
  exact ⟨hfirst ▸ H.file.chain, H.file.in_range⟩

/-- `Write` of a request that stays in one cluster or ends with one. -/
theorem write_spec (hv : vol.WellFormed clusters) (H : Writer vol clusters fd cs p)
    (hend : EndsInCluster vol.bytesPerCluster p len)
    (hfree : max (numCluster vol (p + len)) 1 ≤ cs.length + (vol.freeClusters clusters).card)
    (buf : Nat → UInt8) :
    ∃ vol' fd' cs', write vol fd buf len = some (len, vol', fd') ∧
      Writer vol' clusters fd' cs' (p + len) ∧ Grows vol vol' clusters cs cs' ∧
      fd'.fatEntry = fd.fatEntry ∧ (∀ i < p, contents vol' cs' i = contents vol cs i) ∧
      slice (contents vol' cs') p len = slice buf 0 len ∧
      (vol'.entry fd'.fatEntry).fileSize = (p + len) % 2 ^ 32 ∧ fd'.wrCluster ≠ 0 := by
  have hpos := hv.bytesPerCluster_pos
  obtain ⟨vol₁, fd₁, cs₁, hopen, H₁, hgrow₁, hdata, hent₁, hwr₁, -⟩ := openWrite_spec hv H hfree
  have hb := hgrow₁.bytesPerCluster
  have hfree₁ : p + len ≤ (cs₁.length + (vol₁.freeClusters clusters).card) *
      vol₁.bytesPerCluster := by
    rw [hgrow₁.total, hb]
    exact (numCluster_le_iff hpos).mp (Nat.le_trans (Nat.le_max_left ..) hfree)
  obtain ⟨vol₂, fd₂, cs₂, hloop, H₂, hgrow₂, hent₂, hwr₂, hkeep, hbytes⟩ :=
    writeLoop_spec buf (hgrow₁.wellFormed hv)
      (show Writing vol₁ clusters fd₁ cs₁ (p + 0) from H₁) (Nat.zero_le len)
      (fun h => by
        rw [hb]
        rcases hend with rfl | hone | hmod
        · exact absurd h (Nat.lt_irrefl 0)
        · exact .inl ⟨rfl, hone⟩
        · exact .inr hmod) hfree₁ (by omega : len - 0 < len + 1)
  have hwr : fd₂.wrOff = p := hwr₂.trans (hwr₁.trans H.wrOff)
  obtain ⟨new, rfl⟩ := hgrow₁.grows
  have hle := H.le
  refine ⟨vol₂.setEntry fd₂.fatEntry
      { vol₂.entry fd₂.fatEntry with fileSize := (fd₂.wrOff + len) % 2 ^ 32 },
    { fd₂ with wrOff := fd₂.wrOff + len }, cs₂, ?_, ?_,
    hgrow₁.trans ⟨hgrow₂.1, hgrow₂.2, hgrow₂.3, hgrow₂.4⟩, hent₂.trans hent₁, fun i hi => ?_, ?_, ?_,
    H₂.wrCluster_ne_zero⟩
  · simp only [write, hopen, hloop, Option.bind_eq_bind, Option.bind_some]
    rfl
  · rw [hwr]
    exact H₂.close _
  · show contents vol₂ cs₂ i = contents vol cs i
    rw [hkeep i (by omega), contents_congr hdata hb, contents_append (by omega)]
  · exact hbytes
  · simp [Volume.setEntry, hwr]

/-! ## What `Write` returns on any request -/

theorem extendLoop_bytesPerCluster {fuel candidate current n current' : Nat}
    (h : Volume.extendLoop vol fuel candidate current n = some (vol', current')) :
    vol'.bytesPerCluster = vol.bytesPerCluster := by
  induction fuel generalizing vol candidate current n with
  | zero =>
    cases n with
    | zero => cases h; rfl
    | succ n => cases h
  | succ fuel ih =>
    cases n with
    | zero => cases h; rfl
    | succ n =>
      rw [Volume.extendLoop] at h
      split at h
      · exact ih h
      · have hb := ih h
        exact hb

theorem extendCluster_bytesPerCluster {c n last : Nat}
    (h : vol.extendCluster c n = some (last, vol')) :
    vol'.bytesPerCluster = vol.bytesPerCluster := by
  simp only [Volume.extendCluster, Option.bind_eq_bind, Option.bind_eq_some_iff] at h
  obtain ⟨eoc, -, ⟨vol₁, current⟩, hloop, h⟩ := h
  cases h
  have hb := extendLoop_bytesPerCluster hloop
  exact hb

theorem allocateClusterChain_bytesPerCluster {n first : Nat}
    (h : vol.allocateClusterChain n = some (first, vol')) :
    vol'.bytesPerCluster = vol.bytesPerCluster := by
  simp only [Volume.allocateClusterChain, Option.bind_eq_bind, Option.bind_eq_some_iff] at h
  obtain ⟨first, -, h⟩ := h
  split at h
  · simp only [Option.bind_eq_some_iff] at h
    obtain ⟨⟨last, vol₁⟩, hext, h⟩ := h
    cases h
    exact (extendCluster_bytesPerCluster hext).trans rfl
  · cases h
    rfl

theorem openWrite_frame (h : openWrite vol fd len = some (vol', fd')) :
    vol'.bytesPerCluster = vol.bytesPerCluster ∧ fd'.wrClusterOff = fd.wrClusterOff := by
  simp only [openWrite] at h
  split at h
  · split at h
    · cases h
      exact ⟨rfl, rfl⟩
    · simp only [Option.bind_eq_bind, Option.bind_eq_some_iff] at h
      obtain ⟨⟨first, vol₁⟩, halloc, h⟩ := h
      cases h
      have hb := allocateClusterChain_bytesPerCluster halloc
      exact ⟨hb, rfl⟩
  · cases h
    exact ⟨rfl, rfl⟩

theorem advance_frame {rest : Nat} (h : advance vol fd rest = some (vol', fd')) :
    vol'.bytesPerCluster = vol.bytesPerCluster ∧ fd'.wrClusterOff =
      if fd.wrClusterOff = vol.bytesPerCluster then 0 else fd.wrClusterOff := by
  simp only [advance] at h
  split at h
  · rename_i hoff
    rw [if_pos hoff]
    split at h
    · simp only [Option.bind_eq_bind, Option.bind_eq_some_iff] at h
      obtain ⟨⟨last, vol₁⟩, hext, h⟩ := h
      cases h
      exact ⟨extendCluster_bytesPerCluster hext, rfl⟩
    · cases h
      exact ⟨rfl, rfl⟩
  · rename_i hoff
    rw [if_neg hoff]
    cases h
    exact ⟨rfl, rfl⟩

/-- The loop returns `len` only for a request that stays in one cluster or ends with one: every
turn but the first is bounded by `len`, not by what is left of it. -/
theorem endsInCluster_of_writeLoop {fuel total : Nat} {buf : Nat → UInt8}
    (hpos : 0 < vol.bytesPerCluster) (hoff : fd.wrClusterOff ≤ vol.bytesPerCluster)
    (hp : (p + total) % vol.bytesPerCluster = fd.wrClusterOff % vol.bytesPerCluster)
    (h : writeLoop buf len fuel total vol fd = some (len, vol', fd')) :
    (total = len ∨ total = 0 ∧ p % vol.bytesPerCluster + len ≤ vol.bytesPerCluster ∨
      (p + len) % vol.bytesPerCluster = 0) ∧
    vol'.bytesPerCluster = vol.bytesPerCluster ∧ fd'.wrClusterOff ≤ vol.bytesPerCluster ∧
      (p + len) % vol.bytesPerCluster = fd'.wrClusterOff % vol.bytesPerCluster := by
  induction fuel generalizing total vol fd with
  | zero => cases h
  | succ fuel ih =>
    rw [writeLoop] at h
    split at h
    · rename_i hlt
      simp only [Option.bind_eq_bind, Option.bind_eq_some_iff] at h
      obtain ⟨⟨vol₁, fd₁⟩, hadv, h⟩ := h
      obtain ⟨hb, hoff₁⟩ := advance_frame hadv
      have hoff₁ : fd₁.wrClusterOff = (p + total) % vol.bytesPerCluster := by
        rw [hoff₁, hp]
        split
        · rename_i hfull
          rw [hfull, Nat.mod_self]
        · rename_i hnot
          exact (Nat.mod_eq_of_lt (Nat.lt_of_le_of_ne hoff hnot)).symm
      have hmod := Nat.mod_lt (p + total) hpos
      rw [← hoff₁] at hmod
      simp only at h
      generalize hn : min len (vol₁.bytesPerCluster - fd₁.wrClusterOff) = n at h
      rw [hb] at hn
      have hp₁ : (p + (total + n)) % vol₁.bytesPerCluster =
          (fd₁.wrClusterOff + n) % vol₁.bytesPerCluster := by
        rw [hb, hoff₁, Nat.mod_add_mod, Nat.add_assoc]
      obtain ⟨hcase, hb', hoff', hp'⟩ := ih (hb ▸ hpos)
        (by show fd₁.wrClusterOff + n ≤ vol₁.bytesPerCluster; omega) hp₁ h
      simp only [Volume.setData, hb] at hcase hb' hoff' hp'
      refine ⟨.inr ?_, hb', hoff', hp'⟩
      rcases hcase with hlast | ⟨hzero, -⟩ | hend
      · -- the last turn copies `len` bytes or up to the end of the cluster
        by_cases hlen : n = len
        · obtain rfl : total = 0 := by omega
          exact .inl ⟨rfl, by rw [Nat.add_zero] at hoff₁; omega⟩
        · have hfull : fd₁.wrClusterOff + n = vol.bytesPerCluster := by omega
          rw [hb, hlast, hfull, Nat.mod_self] at hp₁
          exact .inr hp₁
      · omega
      · exact .inr hend
    · rename_i hlt
      cases h
      exact ⟨.inl rfl, rfl, hoff, hp⟩

/-- `Write` returns the length that it was given only for a request that stays in one cluster or
ends with one. -/
theorem endsInCluster_of_write {buf : Nat → UInt8} (hpos : 0 < vol.bytesPerCluster)
    (hoff : fd.wrClusterOff ≤ vol.bytesPerCluster)
    (hp : p % vol.bytesPerCluster = fd.wrClusterOff % vol.bytesPerCluster)
    (h : write vol fd buf len = some (len, vol', fd')) :
    EndsInCluster vol.bytesPerCluster p len ∧ vol'.bytesPerCluster = vol.bytesPerCluster ∧
      fd'.wrClusterOff ≤ vol.bytesPerCluster ∧
      (p + len) % vol.bytesPerCluster = fd'.wrClusterOff % vol.bytesPerCluster := by
  simp only [write, Option.bind_eq_bind, Option.bind_eq_some_iff] at h
  obtain ⟨⟨vol₁, fd₁⟩, hopen, ⟨total, vol₂, fd₂⟩, hloop, h⟩ := h
  cases h
  obtain ⟨hb, hoff₁⟩ := openWrite_frame hopen
  obtain ⟨hcase, hb₂, hoff₂, hp₂⟩ := endsInCluster_of_writeLoop (hb ▸ hpos)
    (by rw [hb, hoff₁]; exact hoff) (by rw [hb, hoff₁]; exact hp) hloop
  rw [hb] at hcase hb₂ hoff₂ hp₂
  refine ⟨?_, hb₂, hoff₂, hp₂⟩
  rcases hcase with hzero | ⟨-, hone⟩ | hend
  · exact .inl hzero.symm
  · exact .inr (.inl hone)
  · exact .inr (.inr hend)

end MikanOS.Fat.FileDescriptor
