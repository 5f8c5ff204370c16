import MikanOS.Terminal.TypedLine

/-! # Commands in the background

What a terminal in the background gets of a line that ends with `&`. -/

namespace MikanOS.CommandLine

open CString

namespace Shell

variable {k : Kernel} {t t' : Shell} {line : List UInt8}

/-- The line without the final `&` and without a blank before it. -/
def withoutAmpersand (line : List UInt8) : List UInt8 :=
  if line.dropLast.getLast? = some blank then line.dropLast.dropLast else line.dropLast

/-- A line without marks is executed as it is. -/
theorem executeLine_noMarks (H : t.Holds line) (hredir : 0x3e ∉ line) (hpipe : 0x7c ∉ line)
    (h : t.executeLine k = some t') : ∃ exitCode t₂,
    t.located.runCommand k t.firstArg = some (exitCode, t₂) ∧ t'.effects = t₂.effects := by
  have hr : t.redirChar = none := by rw [redirChar, LineBuf.locate_redirChar, H.strchr, if_neg hredir]
  have hp : t.pipeChar = none := by rw [pipeChar, LineBuf.locate_pipeChar, H.strchr, if_neg hpipe]
  rcases executeLine_cases h with hredirect | ⟨t₁, exitCode, t₂, hredirect, hrun, rfl⟩
  · rw [hr] at hredirect
    cases hredirect
  · rw [hr] at hredirect
    cases hredirect
    rw [hp] at hrun ⊢
    exact ⟨exitCode, t₂, hrun, rfl⟩

/-- Of the commands that are compared with first, only `noterm` starts a terminal, and for its argument. -/
theorem newTerminal_of_foreground {firstArg : Pointer} {exitCode : Int}
    (hcommand : CString.string t.line.bytes 0 ∈ foreground)
    (h : t.runCommand k firstArg = some (exitCode, t')) :
    ∃ es, t'.effects = t.effects ++ es ∧ ∀ commandLine files, Effect.newTerminal commandLine files ∈ es →
      CString.string t.line.bytes 0 = text "noterm" ∧ commandLine = (t.line.stringAt firstArg).1 := by
  have hprint {u u' : Shell} (fd : Fd) (texts : List (List UInt8)) (hu : u.effects = t.effects)
      (hu' : u' = (u.argument firstArg).2.printAll fd texts) :
      ∃ es, u'.effects = t.effects ++ es ∧ ∀ commandLine files, Effect.newTerminal commandLine files ∈ es →
        CString.string t.line.bytes 0 = text "noterm" ∧ commandLine = (t.line.stringAt firstArg).1 := by
    subst hu'
    refine ⟨texts.map (.printToFD fd), ?_, fun commandLine files hmem => ?_⟩
    · rw [argument_eq, ← hu]
      rfl
    · obtain ⟨s, -, hs⟩ := List.mem_map.mp hmem
      cases hs
  have hmem : CString.string t.line.bytes 0 = (t.line.string 0).1 := rfl
  simp only [runCommand] at h
  split at h
  · cases h
    obtain ⟨texts, hecho, -⟩ := echo_cases { t with line := (t.line.string 0).2 } firstArg
    exact hprint _ texts (by rfl) hecho
  split at h
  · cases h
    exact ⟨[.clear], rfl, fun commandLine files hmem => by cases List.mem_singleton.mp hmem⟩
  split at h
  · cases h
    refine ⟨_, rfl, fun commandLine files hmem => ?_⟩
    obtain ⟨s, -, hs⟩ := List.mem_map.mp hmem
    cases hs
  split at h
  · obtain ⟨fd, texts, ht', -⟩ := ls_cases h
    exact hprint fd texts (by rfl) ht'
  split at h
  · obtain ⟨fd, texts, ht', -⟩ := cat_cases h
    exact hprint fd texts (by rfl) ht'
  split at h
  · rename_i hnoterm
    cases h
    refine ⟨_, rfl, fun commandLine files hmem => ⟨hnoterm, ?_⟩⟩
    cases List.mem_singleton.mp hmem
    cases firstArg <;> rfl
  · rename_i hecho hclear hlspci hls hcat hnoterm
    rw [hmem] at hcommand
    simp only [foreground, List.mem_cons, List.not_mem_nil, or_false] at hcommand
    tauto

/-- The command line of the terminal in the background, read off the bytes. -/
theorem backgroundLine_eq (l : LineBuf) {n q : Nat} (hn : 2 ≤ n) (hq : 1 ≤ q) :
    (l.backgroundLine n (some q)).1 =
      let m := (l.bytes.set (q - 1) blank).set (n - 1) 0
      CString.string (if m.getD (n - 2) 0 = blank then m.set (n - 2) 0 else m) 0 := by
  have hq1 : ((q : Int) - 1) = ((q - 1 : Nat) : Int) := by omega
  have hn1 : ((n : Int) - 1) = ((n - 1 : Nat) : Int) := by omega
  have hn2 : ((n : Int) - 2) = ((n - 2 : Nat) : Int) := by omega
  simp only [LineBuf.backgroundLine, hq1, hn1, hn2, LineBuf.load_natCast, LineBuf.store_natCast]
  split
  · simp only [LineBuf.string, LineBuf.store_natCast, LineBuf.load, LineBuf.touch]
  · simp only [LineBuf.string, LineBuf.store_natCast, LineBuf.load, LineBuf.touch]

section

variable {cmd args : List UInt8} {m : List UInt8} {q : Nat}

/-- Behind the blank that was put back, the line is what was typed up to the `&`. -/
theorem backgroundLine_restored (hm : CString.string m 0 = line)
    (hbytes : ∀ i < line.length, m[i]? = (line)[i]?)
    (hlong : 2 ≤ line.length) :
    CString.string (if (m.set (line.length - 1) 0).getD (line.length - 2) 0 = blank
        then (m.set (line.length - 1) 0).set (line.length - 2) 0 else m.set (line.length - 1) 0) 0 =
      withoutAmpersand line := by
  have hlast : (m.set (line.length - 1) 0).getD (line.length - 2) 0 = blank ↔
      line.dropLast.getLast? = some blank := by
    rw [List.getLast?_eq_getElem?, List.length_dropLast, List.dropLast_eq_take, List.getD_eq_getElem?_getD,
      List.getElem?_set_ne (by omega), hbytes _ (by omega), List.getElem?_take_of_lt (by omega),
      Nat.sub_sub, List.getElem?_eq_getElem (by omega : line.length - 2 < line.length)]
    simp
  simp only [hlast, withoutAmpersand]
  split
  · rw [string_set_zero, string_set_zero, hm, List.dropLast_eq_take, List.dropLast_eq_take, List.length_take]
    congr 1
    omega
  · rw [string_set_zero, hm, List.dropLast_eq_take]

/-- The pointer to the argument is right behind the blank if a character follows that is no space. -/
theorem skip_eq_iff {rest : List UInt8} :
    skip isspace ((cmd ++ blank :: (args ++ [0x26]) ++ 0 :: rest).set cmd.length 0)
      (cmd.length + 1) = cmd.length + 1 ↔ ∀ ch ∈ args.head?, isspace ch = false := by
  have hdrop : ((cmd ++ blank :: (args ++ [0x26]) ++ 0 :: rest).set cmd.length 0).drop (cmd.length + 1) =
      args ++ 0x26 :: 0 :: rest := by
    rw [List.drop_set_of_lt (Nat.lt_succ_self _)]
    simp
  rw [skip, hdrop]
  cases args with
  | nil => simp [isspace, Terminal.isspace]
  | cons ch args => cases hch : isspace ch <;> simp [hch]

theorem le_length_withoutAmpersand (line : List UInt8) :
    line.length ≤ (withoutAmpersand line).length + 2 := by
  rw [withoutAmpersand]
  split <;> simp only [List.length_dropLast] <;> omega

/-- What the other commands do when the line ends with `&`. -/
theorem runCommand_background {exitCode : Int} {firstArg : Pointer}
    (hcommand : CString.string t.line.bytes 0 ∉ foreground)
    (hlast : t.line.bytes.getD (t.linebufIndex.val - 1) 0 = 0x26) (hpos : 0 < t.linebufIndex.val)
    (h : t.runCommand k firstArg = some (exitCode, t')) : ∃ l : LineBuf, l.bytes = t.line.bytes ∧
      t'.effects = t.effects ++ [.newTerminal (l.backgroundLine t.linebufIndex firstArg).1 t.files] := by
  have hn1 : ((t.linebufIndex.val : Int) - 1) = ((t.linebufIndex.val - 1 : Nat) : Int) := by omega
  have hmem : CString.string t.line.bytes 0 = (t.line.string 0).1 := rfl
  simp only [hmem, foreground, List.mem_cons, List.not_mem_nil, or_false, not_or] at hcommand
  obtain ⟨hecho, hclear, hlspci, hls, hcat, hnoterm⟩ := hcommand
  have hload : ((t.line.string 0).2.load (t.linebufIndex.val - 1 : Int)).1 = 0x26 := by
    rw [hn1, LineBuf.load_natCast]
    exact hlast
  simp only [runCommand, if_neg hecho, if_neg hclear, if_neg hlspci, if_neg hls, if_neg hcat, if_neg hnoterm,
    if_pos hload] at h
  cases h
  exact ⟨((t.line.string 0).2.load (t.linebufIndex - 1 : Int)).2, rfl, rfl⟩

/-- In the background a terminal gets the typed line without the `&`, if and only if the command is not one
of those that never look for a `&`, and no second blank follows the first one. -/
theorem executeLine_background_iff (H : t.Holds line) (hline : line = cmd ++ blank :: (args ++ [0x26]))
    (hcmd : blank ∉ cmd) (hredir : 0x3e ∉ line) (hpipe : 0x7c ∉ line) (h : t.executeLine k = some t') :
    t'.effects = t.effects ++ [.newTerminal (withoutAmpersand line) t.files] ↔
      cmd ∉ foreground ∧ ∀ ch ∈ args.head?, isspace ch = false := by
  have hlen : line.length = cmd.length + args.length + 2 := by
    rw [hline, List.length_append, List.length_cons, List.length_append, List.length_singleton]
    omega
  have hidx : line.idxOf blank = cmd.length := by
    rw [hline, List.idxOf_append_of_notMem hcmd, List.idxOf_cons_self, Nat.add_zero]
  have hfound : CString.strchr t.line.bytes 0 blank = some cmd.length := by
    rw [H.strchr, if_pos (by simp [hline]), hidx]
  have hlocated : t.located.line.bytes = t.line.bytes.set cmd.length 0 := by
    rw [located, LineBuf.locate_bytes, hfound, zeroAt]
  obtain ⟨rest, hrest⟩ := H.bytes
  obtain ⟨q, hq, hskip⟩ : ∃ q, t.firstArg = some q ∧ q = skip isspace (t.line.bytes.set cmd.length 0)
      (cmd.length + 1) :=
    ⟨_, by rw [firstArg, LineBuf.locate_firstArg, hfound, Option.map_some], rfl⟩
  have hrestored : q = cmd.length + 1 ↔ ∀ ch ∈ args.head?, isspace ch = false := by
    rw [hskip, hrest, hline]
    exact skip_eq_iff
  have hle : cmd.length + 1 ≤ q := hskip ▸ le_skip _ _ _
  have hcommand : CString.string t.located.line.bytes 0 = cmd := by
    rw [hlocated, string_set_zero, H.string_zero, hline]
    simp
  obtain ⟨exitCode, t₂, hrun, heffects⟩ := executeLine_noMarks H hredir hpipe h
  rw [heffects]
  rw [hq] at hrun
  by_cases hfore : cmd ∈ foreground
  · -- no terminal is started, or one for a shorter text
    obtain ⟨es, hes, hnew⟩ := newTerminal_of_foreground (hcommand.symm ▸ hfore) hrun
    refine iff_of_false (fun heq => ?_) fun hcond => hcond.1 hfore
    obtain rfl := List.append_cancel_left (hes.symm.trans heq)
    obtain ⟨hnoterm, hcommandLine⟩ := hnew _ _ (List.mem_singleton.mpr rfl)
    have hzero : t.located.line.bytes[line.length]? = some 0 := by
      rw [located, LineBuf.locate_bytes]
      exact getElem?_zeroAt H.zero _
    have hqle : q ≤ line.length := by
      rw [hskip, ← hlocated]
      exact CString.skip_le (by decide) hzero (by omega)
    have hshort := add_length_string_le hzero hqle
    have hlong := le_length_withoutAmpersand line
    have hshorter : withoutAmpersand line = CString.string t.located.line.bytes q := hcommandLine
    have hsix : cmd.length = 6 := by
      rw [← hcommand, hnoterm]
      rfl
    rw [hshorter] at hlong
    omega
  · rw [and_iff_right hfore, ← hrestored]
    have hlast : t.located.line.bytes.getD (t.located.linebufIndex.val - 1) 0 = 0x26 := by
      show t.located.line.bytes.getD (t.linebufIndex.val - 1) 0 = 0x26
      rw [hlocated, H.length, List.getD_eq_getElem?_getD, List.getElem?_set_ne (by omega),
        H.getElem?_bytes (by omega),
        ← List.getLast?_eq_getElem?, hline, ← List.cons_append, ← List.append_assoc, List.getLast?_concat]
      rfl
    have hpos : 0 < t.located.linebufIndex.val := by
      show 0 < t.linebufIndex.val
      rw [H.length, hlen]
      omega
    obtain ⟨l, hl, heq⟩ := runCommand_background (hcommand.symm ▸ hfore) hlast hpos hrun
    have hindex : t.located.linebufIndex.val = line.length := H.length
    rw [heq, hindex, backgroundLine_eq l (by omega) (by omega), hl, hlocated]
    refine ⟨fun heq => ?_, fun hqp => ?_⟩
    · -- a blank that is put back elsewhere leaves the cut behind the command
      by_contra hne
      have hargs : args ≠ [] := fun hnil => hne (hrestored.mpr (by simp [hnil]))
      have hpos := List.length_pos_iff.mpr hargs
      have hplt : cmd.length < t.line.bytes.length := by
        have := (List.getElem?_eq_some_iff.mp H.zero).1
        omega
      have hcut : (((t.line.bytes.set cmd.length 0).set (q - 1) blank).set
          (line.length - 1) 0)[cmd.length]? = some 0 := by
        rw [List.getElem?_set_ne (by omega), List.getElem?_set_ne (by omega), List.getElem?_set_self hplt]
      have hlong := le_length_withoutAmpersand line
      have heq := List.append_cancel_left (show t.effects ++ _ = t.effects ++ _ from heq)
      simp only [List.cons.injEq, Effect.newTerminal.injEq, and_true] at heq
      rw [← heq.1] at hlong
      split at hlong
      · have := add_length_string_le (getElem?_zeroAt hcut (some (line.length - 2))) (Nat.zero_le _)
        rw [zeroAt] at this
        omega
      · have := add_length_string_le hcut (Nat.zero_le _)
        omega
    · have hbytes : (t.line.bytes.set cmd.length 0).set (q - 1) blank = t.line.bytes := by
        rw [hqp, Nat.add_sub_cancel, List.set_set, hrest, hline]
        simp
      rw [hbytes, backgroundLine_restored H.string_zero (fun i => H.getElem?_bytes) (by omega)]
      rfl

end

end Shell

namespace Terminal

variable {t t' : Terminal} {k : Kernel} {outputs : List Output} {keycode : UInt8} {line cmd args : List UInt8}

/-- Enter behind a command with a final `&`: the terminal in the background gets the typed line without the
`&`, if and only if the command is not one of those that never look for a `&`, and no second blank follows
the first one. -/
theorem enter_background_iff (htyped : t.shell.typedLine = line) (hzero : 0 ∉ line)
    (hline : line = cmd ++ blank :: (args ++ [0x26])) (hcmd : blank ∉ cmd) (hredir : 0x3e ∉ line)
    (hpipe : 0x7c ∉ line)
    (h : t.inputKey k outputs keycode 0x0a = some t') :
    t'.shell.effects = t.shell.effects ++ [.newTerminal (Shell.withoutAmpersand line) t.shell.files] ↔
      cmd ∉ Shell.foreground ∧ ∀ ch ∈ args.head?, isspace ch = false :=
  Shell.executeLine_background_iff (t := t.shell.terminated)
    (Shell.holds_terminated htyped hzero) hline hcmd hredir hpipe
    (enter_shell h)

theorem enter_background_iff_app : ∃ t', (typed (text "app a &")).inputKey quiet [] 0 0x0a = some t' ∧
    (t'.shell.effects = (typed (text "app a &")).shell.effects ++
        [.newTerminal (Shell.withoutAmpersand (text "app a &")) (typed (text "app a &")).shell.files] ↔
      text "app" ∉ Shell.foreground ∧ ∀ ch ∈ (text "a ").head?, isspace ch = false) := by
  have hsome : ((typed (text "app a &")).inputKey quiet [] 0 0x0a).isSome = true := by decide +kernel
  obtain ⟨t', ht'⟩ := Option.isSome_iff_exists.mp hsome
  have hline : text "app a &" = text "app" ++ blank :: (text "a " ++ [0x26]) := by decide
  exact ⟨t', ht', enter_background_iff (by decide +kernel) (by decide) hline (by decide) (by decide)
    (by decide) ht'⟩

/-- A second blank behind the command: the terminal in the background gets the command alone. -/
theorem not_enter_background : ∃ t', (typed (text "app  a &")).inputKey quiet [] 0 0x0a = some t' ∧
    t'.shell.effects ≠ (typed (text "app  a &")).shell.effects ++
      [.newTerminal (Shell.withoutAmpersand (text "app  a &")) (typed (text "app  a &")).shell.files] := by
  have hsome : ((typed (text "app  a &")).inputKey quiet [] 0 0x0a).isSome = true := by decide +kernel
  obtain ⟨t', ht'⟩ := Option.isSome_iff_exists.mp hsome
  have hline : text "app  a &" = text "app" ++ blank :: (text " a " ++ [0x26]) := by decide
  have hholds : (typed (text "app  a &")).shell.terminated.Holds (text "app  a &") :=
    Shell.holds_terminated (by decide +kernel) (by decide)
  have hiff := Shell.executeLine_background_iff hholds hline (by decide) (by decide) (by decide)
      (enter_shell ht')
  exact ⟨t', ht', fun heq => absurd (hiff.mp heq).2 (by decide)⟩

end Terminal

end MikanOS.CommandLine
