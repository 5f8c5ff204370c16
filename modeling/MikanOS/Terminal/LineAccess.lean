import MikanOS.Terminal.InputKey

/-! # Accesses to the line

Where a line ends with its zero, the pointers of `ExecuteLine` stay between its beginning and that zero, but
for the ones that the checks for a background command make. -/

namespace MikanOS.CommandLine

open CString Fat

/-- All accesses so far were inside, and the line ends at `n`. -/
structure LineBuf.Sound (n : Nat) (l : LineBuf) : Prop where
  inside : ∀ a ∈ l.accesses, a.Inside
  zero : l.bytes[n]? = some 0

namespace LineBuf.Sound

variable {l : LineBuf} {n p q : Nat} {c : UInt8}

theorem lt (H : l.Sound n) : n < kLineMax := l.length_bytes ▸ (List.getElem?_eq_some_iff.mp H.zero).1

theorem touch (H : l.Sound n) {accesses : List Access} (h : ∀ a ∈ accesses, a.Inside) :
    (l.touch accesses).Sound n :=
  ⟨fun a ha => (List.mem_append.mp ha).elim (H.inside a) (h a), H.zero⟩

theorem span (H : l.Sound n) (hq : q ≤ n) : (l.touch (span p q)).Sound n := by
  refine H.touch fun a ha => ?_
  obtain ⟨k, hk, rfl⟩ := List.mem_map.mp ha
  have := List.mem_range.mp hk
  have := H.lt
  exact ⟨by omega, by omega⟩

theorem load (H : l.Sound n) {i : Int} (h0 : 0 ≤ i) (hn : i ≤ n) : (l.load i).2.Sound n :=
  H.touch fun _ ha => List.mem_singleton.mp ha ▸ ⟨h0, Int.lt_of_le_of_lt hn (Int.ofNat_lt.mpr H.lt)⟩

/-- A store before the end of the line, or of a zero. -/
theorem store (H : l.Sound n) (hp : p < n ∨ p = n ∧ c = 0) : (l.store p c).Sound n := by
  have hlt := H.lt
  refine ⟨fun a ha => ?_, ?_⟩
  · rcases List.mem_append.mp ha with ha | ha
    · exact H.inside a ha
    · rw [List.mem_singleton.mp ha]
      exact ⟨by omega, by omega⟩
  · rw [store_natCast, List.getElem?_set]
    split
    · rcases hp with hp | ⟨rfl, rfl⟩
      · omega
      · rw [if_pos (l.length_bytes ▸ hlt)]
    · exact H.zero

theorem string (H : l.Sound n) (hp : p ≤ n) : (l.string p).2.Sound n :=
  H.span (add_length_string_le H.zero hp)

theorem strchr (H : l.Sound n) (c : UInt8) : (l.strchr c).2.Sound n := by
  have hle := add_length_string_le H.zero (Nat.zero_le n)
  refine H.span ?_
  cases hfound : CString.strchr l.bytes 0 c with
  | none => exact Nat.le_trans (Nat.le_add_left _ _) hle
  | some i => exact Nat.le_trans (Nat.le_of_lt (strchr_eq_some hfound).2.1) hle

theorem skip_le (H : l.Sound n) (hp : p ≤ n) : skip isspace l.bytes p ≤ n :=
  CString.skip_le (by decide) H.zero hp

theorem skipSpaces (H : l.Sound n) (hp : p ≤ n) : (l.skipSpaces p).2.Sound n := H.span (H.skip_le hp)

/-- A mark is before the end. -/
theorem strchr_lt (H : l.Sound n) (h : CString.strchr l.bytes 0 c = some p) : p < n :=
  Nat.lt_of_lt_of_le (strchr_eq_some h).2.1 (add_length_string_le H.zero (Nat.zero_le n))

theorem locate (H : l.Sound n) : l.locate.2.Sound n := by
  have Hread : ((((l.string 0).2.strchr blank).2.strchr 0x3e).2.strchr 0x7c).2.Sound n :=
    (((H.string (Nat.zero_le n)).strchr blank).strchr 0x3e).strchr 0x7c
  simp only [LineBuf.locate]
  cases hp : ((l.string 0).2.strchr blank).1 with
  | none => exact Hread
  | some p =>
    have hlt : p < n := H.strchr_lt hp
    exact (Hread.store (.inl hlt)).skipSpaces hlt

theorem firstArg_le (H : l.Sound n) (h : l.locate.1.firstArg = some q) : 1 ≤ q ∧ q ≤ n := by
  rw [locate_firstArg] at h
  obtain ⟨p, hp, rfl⟩ := Option.map_eq_some_iff.mp h
  have hlt := H.strchr_lt hp
  have Hset := H.store (c := 0) (.inl hlt)
  have hle := Hset.skip_le hlt
  rw [store_natCast] at hle
  exact ⟨Nat.le_trans (Nat.le_add_left 1 p) (le_skip _ _ _), hle⟩

theorem cut (H : l.Sound n) (hp : p < n) : (l.cut p).2.Sound n := by
  have Hset := H.store (c := 0) (.inl hp)
  exact (Hset.skipSpaces hp).string (Hset.skip_le hp)

theorem cutAt (H : l.Sound n) {mark : Pointer} (hp : ∀ p ∈ mark, p < n) : (l.cutAt mark).Sound n := by
  cases mark with
  | none => exact H
  | some p => exact H.cut (hp p rfl)

end LineBuf.Sound

namespace Shell

variable {k : Kernel} {t t' : Shell} {n : Nat} {exitCode : Int}

section

variable {firstArg : Pointer}

theorem redirectTo_line {dest : Path} {goesOn : Bool} (h : t.redirectTo dest = some (goesOn, t')) :
    t'.line = t.line := by
  obtain ⟨⟨file, postSlash⟩, -, h⟩ := Option.bind_eq_some_iff.mp h
  cases file with
  | none =>
    obtain ⟨⟨newFile, vol⟩, -, h⟩ := Option.bind_eq_some_iff.mp h
    simp only at h
    split at h
    · cases h
      rfl
    · obtain ⟨entry, -, h⟩ := Option.bind_eq_some_iff.mp h
      cases h
      rfl
  | some r =>
    simp only at h
    split at h <;> cases h <;> rfl

/-- The line behind the redirection. -/
theorem redirect_line {mark : Pointer} {goesOn : Bool} (h : t.redirect mark = some (goesOn, t')) :
    t'.line = t.line.cutAt mark := by
  cases mark with
  | none =>
    cases h
    rfl
  | some mark => exact redirectTo_line h

theorem startPipe_line (k : Kernel) (t : Shell) (mark : Pointer) :
    (t.startPipe k mark).2.line = t.line.cutAt mark := by
  cases mark <;> rfl

theorem argument_sound (H : t.line.Sound n) (h : ∀ p ∈ firstArg, p ≤ n) :
    (t.argument firstArg).2.line.Sound n := by
  cases firstArg with
  | none => exact H
  | some p => exact H.string (h p rfl)

/-! ## The commands -/

theorem echo_line (t : Shell) (firstArg : Pointer) :
    (t.echo firstArg).line = (t.argument firstArg).2.line := by
  obtain ⟨texts, hecho, -⟩ := echo_cases t firstArg
  rw [hecho]
  rfl

theorem ls_line (h : t.ls firstArg = some (exitCode, t')) : t'.line = (t.argument firstArg).2.line := by
  obtain ⟨fd, texts, rfl, -⟩ := ls_cases h
  rfl

theorem cat_line (h : t.cat k firstArg = some (exitCode, t')) :
    t'.line = (t.argument firstArg).2.line := by
  obtain ⟨fd, texts, rfl, -⟩ := cat_cases h
  rfl

theorem execute_line {command : List UInt8} (h : t.execute k command firstArg = some (exitCode, t')) :
    t'.line = t.line ∨ t'.line = (t.argument firstArg).2.line := by
  obtain ⟨fileEntry, -, h⟩ := Option.bind_eq_some_iff.mp h
  cases fileEntry with
  | none =>
    cases h
    exact .inl rfl
  | some r =>
    simp only at h
    split at h <;> cases h <;> exact .inr rfl

/-! ## Background commands -/

/-- A line that ends with `&` behind a first blank is long enough for the checks. -/
theorem background_sound (H : t.line.Sound t.linebufIndex) (hlong : 2 ≤ t.linebufIndex.val)
    (hq : ∀ q ∈ firstArg, 1 ≤ q ∧ q ≤ t.linebufIndex.val) (hsome : firstArg ≠ none) :
    (t.background firstArg).line.Sound t.linebufIndex := by
  obtain ⟨q, rfl⟩ := Option.ne_none_iff_exists'.mp hsome
  obtain ⟨hpos, hle⟩ := hq q rfl
  have hq1 : ((q : Int) - 1) = ((q - 1 : Nat) : Int) := by omega
  have hn1 : ((t.linebufIndex.val : Int) - 1) = ((t.linebufIndex.val - 1 : Nat) : Int) := by omega
  have hn2 : ((t.linebufIndex.val : Int) - 2) = ((t.linebufIndex.val - 2 : Nat) : Int) := by omega
  simp only [background, LineBuf.backgroundLine, hq1, hn1, hn2]
  have Hload := ((H.store (c := blank) (.inl (by omega : q - 1 < _))).store (c := 0)
    (.inl (by omega : t.linebufIndex.val - 1 < _))).load (Int.natCast_nonneg (t.linebufIndex.val - 2))
      (by omega)
  split
  · exact (Hload.store (.inl (by omega))).string (Nat.zero_le _)
  · exact Hload.string (Nat.zero_le _)

/-- Without a blank the null pointer is used. -/
theorem null_mem_background (t : Shell) : Access.null ∈ (t.background none).line.accesses := by
  simp only [background, LineBuf.backgroundLine]
  split <;> simp [LineBuf.string, LineBuf.touch, LineBuf.load, LineBuf.store, effect]

theorem inside_of_foreground {command : List UInt8} {P : Prop} (hcommand : command ∈ foreground)
    (hnoterm : command ≠ text "noterm")
    (H : t'.line.Sound n) : (∀ a ∈ t'.line.accesses, a.Inside) ↔
      if command = text "noterm" then firstArg ≠ none else command ∈ foreground ∨ P := by
  rw [if_neg hnoterm]
  exact iff_of_true H.inside (.inl hcommand)

/-- The check for a final `&`, and what follows it. -/
theorem load_inside_iff {command : List UInt8} (H : t.line.Sound t.linebufIndex)
    (hq : ∀ q ∈ firstArg, 1 ≤ q ∧ q ≤ t.linebufIndex.val)
    (hcut : firstArg ≠ none → ∃ p < t.linebufIndex.val, t.line.bytes[p]? = some 0)
    (hcommand : command = CString.string t.line.bytes 0)
    (h : (let (last, line) := t.line.load (t.linebufIndex - 1 : Int)
      let t := { t with line }
      if last = 0x26 then some (0, t.background firstArg)
      else if command = text "memstat" then some (0, t.memstat k)
      else if command ≠ [] then t.execute k command firstArg
      else some (0, t)) = some (exitCode, t')) :
    (∀ a ∈ t'.line.accesses, a.Inside) ↔ 0 < t.linebufIndex.val ∧
      (t.line.bytes.getD (t.linebufIndex.val - 1) 0 = 0x26 → firstArg ≠ none) := by
  rcases Nat.eq_zero_or_pos t.linebufIndex.val with hzero | hpos
  · -- an empty line: the element before the first one is read, and nothing else happens
    have hnil : command = [] := by
      have hlen := add_length_string_le H.zero (Nat.zero_le _)
      rw [hcommand]
      exact List.eq_nil_of_length_eq_zero (by omega)
    have hne : ([] : List UInt8) ≠ text "memstat" := by decide
    simp only [LineBuf.load, hzero, hnil, if_neg hne] at h
    cases h
    refine iff_of_false (fun hall => ?_) (fun hsome => Nat.lt_irrefl 0 (hzero ▸ hsome.1))
    have := hall (.element (-1)) (List.mem_append_right _ (List.mem_singleton.mpr rfl))
    exact absurd this.1 (by decide)
  · have hn1 : ((t.linebufIndex.val : Int) - 1) = ((t.linebufIndex.val - 1 : Nat) : Int) := by omega
    have Hload := H.load (Int.natCast_nonneg (t.linebufIndex.val - 1)) (by omega)
    rw [hn1] at h
    simp only [LineBuf.load_natCast] at h
    split at h
    · rename_i hamp
      cases h
      cases firstArg with
      | none =>
        refine iff_of_false (fun hall => ?_) fun hcond => hcond.2 hamp rfl
        exact hall .null (null_mem_background _)
      | some q =>
        refine iff_of_true (background_sound
          (t := { t with line := (t.line.load ((t.linebufIndex.val - 1 : Nat) : Int)).2 })
          Hload ?_ hq (Option.some_ne_none q)).inside ⟨hpos, fun _ => Option.some_ne_none q⟩
        -- the first blank was cut, so it is not the last character
        obtain ⟨p, hp, hzero⟩ := hcut (Option.some_ne_none q)
        by_contra hshort
        have hp0 : t.linebufIndex.val - 1 = p := by
          have : ¬2 ≤ t.linebufIndex.val := hshort
          omega
        rw [hp0, List.getD_eq_getElem?_getD, hzero] at hamp
        exact absurd hamp (by decide)
    · rename_i hamp
      refine iff_of_true ?_ ⟨hpos, fun h => absurd h hamp⟩
      split at h
      · cases h
        exact Hload.inside
      split at h
      · rcases execute_line h with hline | hline
        · rw [hline]
          exact Hload.inside
        · rw [hline]
          exact (argument_sound Hload fun p hp => (hq p hp).2).inside
      · cases h
        exact Hload.inside

/-- Whether all accesses of a command are inside. -/
theorem runCommand_inside_iff (H : t.line.Sound t.linebufIndex)
    (hq : ∀ q ∈ firstArg, 1 ≤ q ∧ q ≤ t.linebufIndex.val)
    (hcut : firstArg ≠ none → ∃ p < t.linebufIndex.val, t.line.bytes[p]? = some 0)
    (h : t.runCommand k firstArg = some (exitCode, t')) :
    (∀ a ∈ t'.line.accesses, a.Inside) ↔
      if CString.string t.line.bytes 0 = text "noterm" then firstArg ≠ none
      else CString.string t.line.bytes 0 ∈ foreground ∨ 0 < t.linebufIndex.val ∧
        (t.line.bytes.getD (t.linebufIndex.val - 1) 0 = 0x26 → firstArg ≠ none) := by
  have Hread := H.string (Nat.zero_le _)
  have harg := argument_sound (t := { t with line := (t.line.string 0).2 }) Hread fun p hp => (hq p hp).2
  have hmem : CString.string t.line.bytes 0 = (t.line.string 0).1 := rfl
  simp only [runCommand] at h
  split at h
  · rename_i hcommand
    cases h
    rw [hmem, hcommand]
    exact inside_of_foreground (by decide) (by decide) (echo_line _ _ ▸ harg)
  split at h
  · rename_i hcommand
    cases h
    rw [hmem, hcommand]
    exact inside_of_foreground (by decide) (by decide) Hread
  split at h
  · rename_i hcommand
    cases h
    rw [hmem, hcommand]
    exact inside_of_foreground (by decide) (by decide) Hread
  split at h
  · rename_i hcommand
    rw [hmem, hcommand]
    exact inside_of_foreground (by decide) (by decide) (ls_line h ▸ harg)
  split at h
  · rename_i hcommand
    rw [hmem, hcommand]
    exact inside_of_foreground (by decide) (by decide) (cat_line h ▸ harg)
  split at h
  · rename_i hcommand
    cases h
    rw [hmem, hcommand, if_pos rfl]
    cases firstArg with
    | none =>
      refine iff_of_false (fun hall => ?_) fun hne => hne rfl
      exact hall .null (List.mem_append_right _ (List.mem_singleton.mpr rfl))
    | some q => exact iff_of_true (Hread.string (hq q rfl).2).inside (Option.some_ne_none q)
  · rename_i hecho hclear hlspci hls hcat hnoterm
    have hnot : CString.string t.line.bytes 0 ∉ foreground := by
      simp only [foreground, List.mem_cons, List.not_mem_nil, or_false, hmem]
      tauto
    have hnoterm : CString.string t.line.bytes 0 ≠ text "noterm" := hnoterm
    rw [if_neg hnoterm, or_iff_right hnot]
    exact load_inside_iff (t := { t with line := (t.line.string 0).2 }) Hread hq hcut rfl h

end

/-! ## A whole line -/

/-- The command of a line: its beginning up to a blank or a mark. -/
def command (t : Shell) : List UInt8 :=
  (CString.string t.line.bytes 0).takeWhile fun ch => ch ≠ blank ∧ ch ≠ 0x3e ∧ ch ≠ 0x7c

/-- The line has a blank. -/
def HasBlank (t : Shell) : Prop := blank ∈ CString.string t.line.bytes 0

/-- `ExecuteLine` returns before it looks at the command, or what it looks at is there: an argument for
`noterm`, a last character behind other commands than the built-in ones, and a blank if that is `&`. -/
def StaysInside (t : Shell) : Prop :=
  t.RedirectFails ∨
    if t.command = text "noterm" then t.HasBlank
    else t.command ∈ foreground ∨ 0 < t.linebufIndex.val ∧
      (t.line.bytes.getD (t.linebufIndex.val - 1) 0 = 0x26 → t.HasBlank)

theorem firstArg_ne_none (t : Shell) : t.firstArg ≠ none ↔ t.HasBlank := by
  rw [firstArg, LineBuf.locate_firstArg, Ne, Option.map_eq_none_iff, strchr_eq_none, not_not, HasBlank]

/-- A mark is not a `&`, so that to cut the line there does not change what the check sees. -/
theorem getD_zeroAt_eq_amp {m m' : List UInt8} {mark : Pointer} {d : UInt8} (i : Nat)
    (hm : m'.getD i 0 = 0x26 ↔ m.getD i 0 = 0x26) (hmark : ∀ p ∈ mark, m[p]? = some d) (hd : d ≠ 0x26) :
    (zeroAt m' mark).getD i 0 = 0x26 ↔ m.getD i 0 = 0x26 := by
  cases mark with
  | none => exact hm
  | some p =>
    by_cases hpi : p = i
    · subst hpi
      have hne : m.getD p 0 ≠ 0x26 := by
        rw [List.getD_eq_getElem?_getD, hmark p rfl]
        exact hd
      refine iff_of_false (fun h => ?_) hne
      rw [zeroAt, List.getD_eq_getElem?_getD, List.getElem?_set] at h
      split at h
      · split at h <;> exact absurd h (by decide)
      · rename_i hne
        exact hne rfl
    · rw [zeroAt, List.getD_eq_getElem?_getD, List.getElem?_set_ne hpi, ← List.getD_eq_getElem?_getD]
      exact hm

/-- The line at the point where the command is looked at. -/
def cutLine (t : Shell) : LineBuf := (t.located.line.cutAt t.redirChar).cutAt t.pipeChar

theorem cutLine_bytes (t : Shell) : t.cutLine.bytes = zeroAt (zeroAt (zeroAt t.line.bytes
    (strchr t.line.bytes 0 blank)) (strchr t.line.bytes 0 0x3e)) (strchr t.line.bytes 0 0x7c) := by
  rw [cutLine, LineBuf.cutAt_bytes, LineBuf.cutAt_bytes, located, LineBuf.locate_bytes, redirChar, pipeChar,
    LineBuf.locate_redirChar, LineBuf.locate_pipeChar]

/-- The command is the beginning of the line up to the first of the cuts. -/
theorem string_cutLine (t : Shell) : CString.string t.cutLine.bytes 0 = t.command := by
  have hall : CString.string t.line.bytes 0 = (CString.string t.line.bytes 0).takeWhile fun _ => true :=
    (List.takeWhile_eq_self_iff.mpr fun _ _ => rfl).symm
  rw [cutLine_bytes, string_zeroAt_strchr (string_zeroAt_strchr (string_zeroAt_strchr hall blank) 0x3e) 0x7c,
    command]
  congr 1
  funext ch
  simp [Bool.and_assoc]

/-- The last character is a `&` after the cuts if it was before. -/
theorem last_cutLine (t : Shell) (i : Nat) : t.cutLine.bytes.getD i 0 = 0x26 ↔
    t.line.bytes.getD i 0 = 0x26 := by
  have hmark (c : UInt8) : ∀ p ∈ strchr t.line.bytes 0 c, t.line.bytes[p]? = some c :=
    fun p hp => (strchr_eq_some hp).2.2
  rw [cutLine_bytes]
  exact getD_zeroAt_eq_amp i (getD_zeroAt_eq_amp i (getD_zeroAt_eq_amp i Iff.rfl (hmark blank) (by decide))
    (hmark 0x3e) (by decide)) (hmark 0x7c) (by decide)

/-- The first blank was cut. -/
theorem zero_of_hasBlank (H : t.line.Sound n) (h : t.HasBlank) : ∃ p < n, t.cutLine.bytes[p]? = some 0 := by
  obtain ⟨p, hp⟩ := Option.ne_none_iff_exists'.mp fun hnone => strchr_eq_none.mp hnone h
  refine ⟨p, H.strchr_lt hp, ?_⟩
  rw [cutLine_bytes, hp]
  refine getElem?_zeroAt (getElem?_zeroAt ?_ _) _
  exact List.getElem?_set_self (t.line.length_bytes.symm ▸ Nat.lt_trans (H.strchr_lt hp) H.lt)

/-- At Enter the line ends where the next character would be stored. -/
theorem sound_terminated (t : Shell) : t.terminated.line.Sound t.linebufIndex := by
  refine ⟨fun a ha => ?_, t.terminated_zero⟩
  rw [List.mem_singleton.mp ha]
  exact ⟨Int.natCast_nonneg _, Int.ofNat_lt.mpr t.linebufIndex.isLt⟩

theorem sound_cutLine (H : t.line.Sound n) : t.cutLine.Sound n := by
  refine (H.locate.cutAt fun p hp => ?_).cutAt fun p hp => ?_
  · rw [redirChar, LineBuf.locate_redirChar] at hp
    exact H.strchr_lt hp
  · rw [pipeChar, LineBuf.locate_pipeChar] at hp
    exact H.strchr_lt hp

/-- The accesses of a line are inside if and only if it avoids the unchecked ones. -/
theorem executeLine_inside_iff (H : t.line.Sound t.linebufIndex) (h : t.executeLine k = some t') :
    (∀ a ∈ t'.line.accesses, a.Inside) ↔ t.StaysInside := by
  rcases executeLine_cases h with hredirect | ⟨t₁, exitCode, t₂, hredirect, hrun, rfl⟩
  · refine iff_of_true ?_ (.inl ((redirect_cases hredirect).2.mp rfl))
    rw [redirect_line hredirect]
    refine (H.locate.cutAt fun p hp => ?_).inside
    rw [redirChar, LineBuf.locate_redirChar] at hp
    exact H.strchr_lt hp
  · obtain ⟨hindex, hfails⟩ := redirect_cases hredirect
    have hnot : ¬t.RedirectFails := fun hf => by cases hfails.mpr hf
    have hline : (t₁.startPipe k t.pipeChar).2.line = t.cutLine := by
      rw [startPipe_line, redirect_line hredirect, cutLine]
    have hindex₁ : (t₁.startPipe k t.pipeChar).2.linebufIndex = t.linebufIndex := by
      rw [← hindex]
      cases t.pipeChar <;> rfl
    have hwait : ∀ id, (t₂.waitPipe k id exitCode).2.line = t₂.line := fun id => by cases id <;> rfl
    have hiff := runCommand_inside_iff ?_ ?_ ?_ hrun
    · show (∀ a ∈ (t₂.waitPipe k _ exitCode).2.line.accesses, a.Inside) ↔ _
      rw [hwait, hiff, hline, hindex₁, string_cutLine, last_cutLine, firstArg_ne_none, StaysInside,
        or_iff_right hnot]
    · rw [hline, hindex₁]
      exact sound_cutLine H
    · rw [hindex₁]
      exact fun q hq => H.firstArg_le hq
    · rw [firstArg_ne_none, hline, hindex₁]
      exact zero_of_hasBlank H

end Shell

/-- While Enter is processed, the line is accessed inside `linebuf_` only and no null pointer is used, if
and only if the line avoids the unchecked accesses. -/
theorem Terminal.enter_inside_iff {t t' : Terminal} {k : Kernel} {outputs : List Terminal.Output}
    {keycode : UInt8}
    (h : t.inputKey k outputs keycode 0x0a = some t') :
    (∀ a ∈ t'.shell.line.accesses, a.Inside) ↔ t.shell.terminated.StaysInside := by
  exact Shell.executeLine_inside_iff t.shell.sound_terminated (Terminal.enter_shell h)

namespace Terminal

theorem enter_inside_iff_echo : ∃ t', (typed (text "echo a")).inputKey quiet [] 0 0x0a = some t' ∧
    ((∀ a ∈ t'.shell.line.accesses, a.Inside) ↔ (typed (text "echo a")).shell.terminated.StaysInside) := by
  have hsome : ((typed (text "echo a")).inputKey quiet [] 0 0x0a).isSome = true := by decide +kernel
  obtain ⟨t', ht'⟩ := Option.isSome_iff_exists.mp hsome
  exact ⟨t', ht', enter_inside_iff ht'⟩

/-- A command without arguments that ends with `&`: the null pointer `first_arg` is decremented. -/
theorem not_enter_inside : ∃ t', (typed (text "app&")).inputKey quiet [] 0 0x0a = some t' ∧
    ¬∀ a ∈ t'.shell.line.accesses, a.Inside := by
  have hnull : ((typed (text "app&")).inputKey quiet [] 0 0x0a).map
      (fun t' => decide (Access.null ∈ t'.shell.line.accesses)) = some true := by decide +kernel
  obtain ⟨t', ht', hmem⟩ := Option.map_eq_some_iff.mp hnull
  exact ⟨t', ht', fun hall => hall .null (of_decide_eq_true hmem)⟩

end Terminal

end MikanOS.CommandLine
