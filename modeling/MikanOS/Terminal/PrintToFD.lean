import MikanOS.Terminal.TypedLine

/-! # Formatted output

`PrintToFD` formats into a buffer of 128 bytes. Its texts come from the command line, from file names, and in
`cat` from `ReadDelim` with a buffer of 1024 bytes. -/

namespace MikanOS.CommandLine

open Fat

/-! ## Lines of a file -/

/-- The lines of a file, each with its newline. -/
def lines : List UInt8 → List (List UInt8)
  | [] => []
  | ch :: input =>
    if ch = newline then [ch] :: lines input
    else
      match lines input with
      | [] => [[ch]]
      | l :: ls => (ch :: l) :: ls

section

variable {input l : List UInt8} {ls : List (List UInt8)} {n turns : Nat}

@[simp] theorem flatten_lines (input : List UInt8) : (lines input).flatten = input := by
  induction input with
  | nil => rfl
  | cons ch input ih =>
    rw [lines]
    split
    · rw [List.flatten_cons, ih, List.singleton_append]
    · cases hls : lines input with
      | nil =>
        rw [hls] at ih
        rw [← ih]
        rfl
      | cons l ls =>
        rw [hls, List.flatten_cons] at ih
        rw [← ih]
        rfl

theorem nil_notMem_lines (input : List UInt8) : [] ∉ lines input := by
  induction input with
  | nil => simp [lines]
  | cons ch input ih =>
    rw [lines]
    split
    · simpa using ih
    · cases hls : lines input with
      | nil => simp
      | cons l ls =>
        rw [hls] at ih
        simp only [List.mem_cons, not_or] at ih ⊢
        exact ⟨List.cons_ne_nil _ _ |>.symm, ih.2⟩

/-- The lines behind the first byte. -/
theorem lines_tail {ch : UInt8} (h : lines (ch :: input) = l :: ls) :
    lines input = if l.tail = [] then ls else l.tail :: ls := by
  rw [lines] at h
  split at h
  · cases h
    rfl
  · cases hls : lines input with
    | nil =>
      rw [hls] at h
      cases h
      rfl
    | cons l' ls' =>
      rw [hls] at h
      cases h
      have hne : l' ≠ [] := fun hnil => nil_notMem_lines input (by simp [hls, hnil])
      rw [List.tail_cons, if_neg hne]

/-- The lines behind a part of the first line. -/
theorem lines_drop (h : lines input = l :: ls) (hn : n ≤ l.length) :
    lines (input.drop n) = if l.drop n = [] then ls else l.drop n :: ls := by
  induction n generalizing input l with
  | zero =>
    have hne : l ≠ [] := fun hnil => nil_notMem_lines input (by simp [h, hnil])
    rw [List.drop_zero, List.drop_zero, if_neg hne, h]
  | succ n ih =>
    cases input with
    | nil => cases h
    | cons ch input =>
      have htail := lines_tail h
      have hlen : n ≤ l.tail.length := by
        rw [List.length_tail]
        omega
      rw [List.drop_succ_cons, ← List.drop_tail]
      split at htail
      · rename_i hnil
        rw [hnil, List.drop_nil, if_pos rfl]
        rw [hnil] at hlen
        obtain rfl : n = 0 := Nat.le_zero.mp hlen
        rw [List.drop_zero, htail]
      · exact ih htail hlen

/-- `ReadDelim` reads a line, or as much of it as the buffer takes. -/
theorem readDelim_lines (h : lines input = l :: ls) (n : Nat) :
    readDelim newline n input = (l.take n, input.drop (l.take n).length) := by
  induction n generalizing input l ls with
  | zero => rfl
  | succ n ih =>
    cases input with
    | nil => cases h
    | cons ch input =>
      rw [lines] at h
      rw [readDelim]
      split at h
      · rename_i hch
        cases h
        rw [if_pos hch, List.take_succ_cons, List.take_nil]
        rfl
      · rename_i hch
        rw [if_neg hch]
        cases hls : lines input with
        | nil =>
          rw [hls] at h
          cases h
          have hnil : input = [] := by rw [← flatten_lines input, hls, List.flatten_nil]
          subst hnil
          cases n <;> rfl
        | cons l' ls' =>
          rw [hls] at h
          cases h
          rw [ih hls]
          rfl

/-- The pieces in which a line is read. -/
def piece (l : List UInt8) (j : Nat) : List UInt8 := (l.drop (1023 * j)).take 1023

theorem piece_succ (l : List UInt8) (j : Nat) : piece l (j + 1) = piece (l.drop 1023) j := by
  rw [piece, piece, List.drop_drop]
  congr 2
  omega

/-- A turn of `cat`. -/
theorem catLoop_cons (h : lines input = l :: ls) (turns : Nat) :
    l.take 1023 ≠ [] ∧ l.take 1023 <+: input ∧
      catLoop (turns + 1) input = l.take 1023 :: catLoop turns (input.drop (l.take 1023).length) := by
  have hne : l ≠ [] := fun hnil => nil_notMem_lines input (by simp [h, hnil])
  have htake : l.take 1023 ≠ [] := by simpa using hne
  refine ⟨htake, (List.take_prefix 1023 l).trans ⟨ls.flatten, ?_⟩, ?_⟩
  · rw [← List.flatten_cons, ← h, flatten_lines]
  · rw [catLoop, readDelim_lines h]
    exact if_neg htake

/-- The buffers of `cat` are the pieces of the lines. -/
theorem catLoop_forall_iff {P : List UInt8 → Prop} (hP : P []) (h : input.length < turns) :
    (∀ u8buf ∈ catLoop turns input, P u8buf) ↔ ∀ l ∈ lines input, ∀ j, P (piece l j) := by
  induction turns generalizing input with
  | zero => exact absurd h (Nat.not_lt_zero _)
  | succ turns ih =>
    cases hls : lines input with
    | nil =>
      have hnil : input = [] := by rw [← flatten_lines input, hls, List.flatten_nil]
      subst hnil
      exact iff_of_true (fun u8buf hu => by cases hu) fun l hl => by cases hl
    | cons l ls =>
      obtain ⟨htake, hprefix, hturn⟩ := catLoop_cons hls turns
      have hpos := List.length_pos_iff.mpr htake
      have hle := hprefix.length_le
      have hlen : (l.take 1023).length = min 1023 l.length := List.length_take
      rw [hturn, List.forall_mem_cons, List.forall_mem_cons, ih (by rw [List.length_drop]; omega),
        lines_drop hls (by omega)]
      have hdrop : l.drop (l.take 1023).length = l.drop 1023 := by
        rw [hlen]
        rcases Nat.le_total l.length 1023 with hshort | hlong
        · rw [Nat.min_eq_right hshort, List.drop_length, List.drop_of_length_le hshort]
        · rw [Nat.min_eq_left hlong]
      have hpieces : (∀ j, P (piece l j)) ↔ P (l.take 1023) ∧ ∀ j, P (piece (l.drop 1023) j) := by
        refine ⟨fun hall => ⟨hall 0, fun j => piece_succ l j ▸ hall (j + 1)⟩, fun ⟨hfirst, hrest⟩ j => ?_⟩
        cases j with
        | zero => exact hfirst
        | succ j => exact piece_succ l j ▸ hrest j
      rw [hdrop, hpieces, and_assoc, and_congr_right_iff]
      intro _
      split
      · rename_i hnil
        rw [hnil, iff_and_self]
        intro _ j
        rw [piece, List.drop_nil, List.take_nil]
        exact hP
      · rw [List.forall_mem_cons]

/-- `cat` reads the whole file. -/
theorem flatten_catLoop (h : input.length < turns) : (catLoop turns input).flatten = input := by
  induction turns generalizing input with
  | zero => exact absurd h (Nat.not_lt_zero _)
  | succ turns ih =>
    cases hls : lines input with
    | nil =>
      have hnil : input = [] := by rw [← flatten_lines input, hls, List.flatten_nil]
      subst hnil
      rfl
    | cons l ls =>
      obtain ⟨htake, hprefix, hturn⟩ := catLoop_cons hls turns
      have hpos := List.length_pos_iff.mpr htake
      have hle := hprefix.length_le
      rw [hturn, List.flatten_cons, ih (by rw [List.length_drop]; omega)]
      nth_rewrite 1 [List.prefix_iff_eq_take.mp hprefix]
      exact List.take_append_drop _ _

end

/-! ## Lengths of texts -/

theorem length_signed {i : Int} (hi : -2 ^ 31 ≤ i ∧ i < 2 ^ 31) : (signed i).length ≤ 11 := by
  have hdecimal : (decimal i.natAbs).length ≤ 10 := by
    rw [decimal, List.length_map, Nat.length_toDigits_le_iff (by decide) (by decide)]
    omega
  rw [signed]
  split
  · rw [List.length_append]
    exact Nat.add_le_add (by decide : (text "-").length ≤ 1) hdecimal
  · exact Nat.le_trans hdecimal (by decide)

theorem length_nameField (bytes : List UInt8) : (nameField bytes).length ≤ bytes.length :=
  Nat.le_trans (List.takeWhile_sublist _).length_le (List.rdropWhile_prefix _ bytes).length_le

/-- A name has 8 characters, a dot and 3 characters. -/
theorem length_formatName (e : DirectoryEntry) : (formatName e).length ≤ 12 := by
  have hbase := length_nameField (e.name.toList.take 8)
  have hext := length_nameField (e.name.toList.drop 8)
  have hname : e.name.toList.length = 11 := by simp
  rw [List.length_take, hname] at hbase
  rw [List.length_drop, hname] at hext
  simp only [formatName]
  split
  · omega
  · rw [List.length_append, List.length_cons]
    omega

theorem length_name_append (e : DirectoryEntry) {rest : List UInt8} (h : rest.length ≤ 115) :
    (formatName e ++ rest).length ≤ 127 := by
  rw [List.length_append]
  exact Nat.add_le_add (length_formatName e) h

theorem length_errorName (err : Error) : (errorName err).length ≤ 26 := by
  cases err <;> decide

/-- Of each piece of a line, what stands in front of a zero fits into the buffer. -/
def ShortPieces (input : List UInt8) : Prop :=
  ∀ l ∈ lines input, ∀ j, ((piece l j).takeWhile (· ≠ 0)).length ≤ 127

theorem catTexts_fit_iff (input : List UInt8) :
    (∀ s ∈ Shell.catTexts input, s.length ≤ 127) ↔ ShortPieces input := by
  rw [Shell.catTexts, List.forall_mem_map]
  exact catLoop_forall_iff (P := fun u8buf => (u8buf.takeWhile (· ≠ 0)).length ≤ 127) (by decide)
    (Nat.lt_succ_self _)

/-- Without zeros `cat` writes what it reads. -/
theorem flatten_catTexts {input : List UInt8} (h : 0 ∉ input) : (Shell.catTexts input).flatten = input := by
  have hflatten := flatten_catLoop (Nat.lt_succ_self input.length)
  have hself : Shell.catTexts input = catLoop (input.length + 1) input := by
    refine (List.map_congr_left fun u8buf hu => ?_).trans (List.map_id _)
    rw [List.takeWhile_eq_self_iff.mpr, id]
    refine fun c hc => decide_eq_true fun hzero => h ?_
    rw [← hzero, ← hflatten]
    exact List.mem_flatten.mpr ⟨u8buf, hu, hc⟩
  rw [hself, hflatten]

/-! ## The built-in commands -/

namespace Shell

variable {k : Kernel} {t t' s s' : Shell} {firstArg : Pointer} {exitCode : Int} {texts : List (List UInt8)}

def builtins : List (List UInt8) := [text "echo", text "ls", text "cat"]

/-- What a built-in command prints: `ls` and `cat` as in `ls_cases` and `cat_cases`. -/
def Prints (k : Kernel) (s : Shell) (firstArg : Pointer) (texts : List (List UInt8)) : Prop :=
  let command := CString.string s.line.bytes 0
  let arg := (s.argument firstArg).1
  command = text "echo" ∧ (∀ x ∈ texts, x = arg ∨ x = signed s.lastExitCode ∨ x = [newline]) ∨
  command = text "ls" ∧
    (s.Missing arg ∧ texts = [text "No such file or directory: " ++ arg ++ [newline]] ∨
      ¬s.Missing arg ∧ ∀ x ∈ texts, ∃ e,
        x = formatName e ++ [newline] ∨ x = formatName e ++ text " is not a directory\n") ∨
  command = text "cat" ∧
    (s.Missing arg ∧ texts = [text "no such file: " ++ arg ++ [newline]] ∨
      ¬s.Missing arg ∧ ((∃ source, s.Opens arg source ∧ texts = catTexts (k.read source)) ∨
        (∀ source, ¬s.Opens arg source) ∧ ∀ x ∈ texts, ∃ e,
          x = formatName e ++ text " is not a directory\n" ∨ x = formatName e ++ text " is a directory\n"))

theorem runCommand_prints (hcommand : CString.string s.line.bytes 0 ∈ builtins)
    (h : s.runCommand k firstArg = some (exitCode, s')) : ∃ fd texts,
      s'.effects = s.effects ++ texts.map (.printToFD fd) ∧ Prints k s firstArg texts := by
  have hmem : CString.string s.line.bytes 0 = (s.line.string 0).1 := rfl
  have hargument : ({ s with line := (s.line.string 0).2 }.argument firstArg).1 =
      (s.argument firstArg).1 := by
    cases firstArg <;> rfl
  have heffects (fd : Fd) (texts : List (List UInt8)) :
      (({ s with line := (s.line.string 0).2 }.argument firstArg).2.printAll fd texts).effects =
        s.effects ++ texts.map (.printToFD fd) := by
    rw [argument_eq]
    rfl
  simp only [builtins, List.mem_cons, List.not_mem_nil, or_false, hmem] at hcommand
  have hls : text "ls" ≠ text "echo" ∧ text "ls" ≠ text "clear" ∧ text "ls" ≠ text "lspci" := by decide
  have hcat : text "cat" ≠ text "echo" ∧ text "cat" ≠ text "clear" ∧ text "cat" ≠ text "lspci" ∧
    text "cat" ≠ text "ls" := by decide
  rcases hcommand with hcommand | hcommand | hcommand
  · simp only [runCommand, hcommand] at h
    cases h
    obtain ⟨texts, hecho, htexts⟩ := echo_cases { s with line := (s.line.string 0).2 } firstArg
    rw [hargument] at htexts
    exact ⟨_, texts, by rw [hecho, heffects], .inl ⟨hcommand, htexts⟩⟩
  · simp only [runCommand, hcommand, hls] at h
    obtain ⟨fd, texts, rfl, htexts⟩ := ls_cases h
    rw [hargument] at htexts
    exact ⟨fd, texts, heffects fd texts, .inr (.inl ⟨hcommand, htexts⟩)⟩
  · simp only [runCommand, hcommand, hcat] at h
    obtain ⟨fd, texts, rfl, htexts⟩ := cat_cases h
    rw [hargument] at htexts
    exact ⟨fd, texts, heffects fd texts, .inr (.inr ⟨hcommand, htexts⟩)⟩

theorem Opens.unique {arg : List UInt8} {fd fd' : Fd} (h : s.Opens arg fd) (h' : s.Opens arg fd') :
    fd = fd' := by
  rcases h with ⟨hnil, rfl⟩ | ⟨hne, r, hfind, -, rfl⟩ <;> rcases h' with ⟨hnil', rfl⟩ |
    ⟨hne', r', hfind', -, rfl⟩
  · rfl
  · exact absurd hnil hne'
  · exact absurd hnil' hne
  · rw [hfind] at hfind'
    cases hfind'
    rfl

theorem Missing.not_opens {arg : List UInt8} (h : s.Missing arg) (fd : Fd) : ¬s.Opens arg fd := by
  obtain ⟨hne, postSlash, hnone⟩ := h
  rintro (⟨hnil, -⟩ | ⟨-, r, hfind, -⟩)
  · exact hne hnil
  · rw [hnone] at hfind
    cases hfind

/-- The texts of the command fit into the buffer: a name that is not found leaves room for the text around
it, and the file that `cat` reads has short lines. -/
structure CommandFits (k : Kernel) (s : Shell) (firstArg : Pointer) : Prop where
  ls : CString.string s.line.bytes 0 = text "ls" → s.Missing (s.argument firstArg).1 →
    (s.argument firstArg).1.length ≤ 99
  cat : CString.string s.line.bytes 0 = text "cat" →
    s.Missing (s.argument firstArg).1 → (s.argument firstArg).1.length ≤ 112
  file : CString.string s.line.bytes 0 = text "cat" → ∀ source, s.Opens (s.argument firstArg).1 source →
    ShortPieces (k.read source)

theorem Prints.fit_iff (h : Prints k s firstArg texts)
    (hcode : -2 ^ 31 ≤ s.lastExitCode ∧ s.lastExitCode < 2 ^ 31)
    (harg : (s.argument firstArg).1.length ≤ 127) : (∀ x ∈ texts, x.length ≤ 127) ↔
    CommandFits k s firstArg := by
  have hlsEcho : text "ls" ≠ text "echo" := by decide
  have hcatEcho : text "cat" ≠ text "echo" := by decide
  have hcatLs : text "cat" ≠ text "ls" := by decide
  rcases h with ⟨hcommand, htexts⟩ | ⟨hcommand, hls⟩ | ⟨hcommand, hcat⟩
  · refine iff_of_true (fun x hx => ?_) ⟨?_, ?_, ?_⟩
    · rcases htexts x hx with rfl | rfl | rfl
      · exact harg
      · exact Nat.le_trans (length_signed hcode) (by decide)
      · decide
    · exact fun h => absurd (h.symm.trans hcommand) hlsEcho
    · exact fun h => absurd (h.symm.trans hcommand) hcatEcho
    · exact fun h => absurd (h.symm.trans hcommand) hcatEcho
  · have hfits : (∀ x ∈ texts, x.length ≤ 127) ↔
        (s.Missing (s.argument firstArg).1 → (s.argument firstArg).1.length ≤ 99) := by
      rcases hls with ⟨hmissing, rfl⟩ | ⟨hfound, htexts⟩
      · have hlen : (text "No such file or directory: ").length = 27 := by decide
        rw [List.forall_mem_singleton, List.length_append, List.length_append, hlen, List.length_singleton]
        exact ⟨fun h _ => by omega, fun h => by have := h hmissing; omega⟩
      · refine iff_of_true (fun x hx => ?_) fun h => absurd h hfound
        obtain ⟨e, rfl | rfl⟩ := htexts x hx
        · exact length_name_append e (by decide)
        · exact length_name_append e (by decide)
    refine hfits.trans ⟨fun h => ⟨fun _ => h, ?_, ?_⟩, fun h => h.ls hcommand⟩
    · exact fun h => absurd (h.symm.trans hcommand) hcatLs
    · exact fun h => absurd (h.symm.trans hcommand) hcatLs
  · have hfits : (∀ x ∈ texts, x.length ≤ 127) ↔
        (s.Missing (s.argument firstArg).1 → (s.argument firstArg).1.length ≤ 112) ∧
          ∀ source, s.Opens (s.argument firstArg).1 source → ShortPieces (k.read source) := by
      rcases hcat with ⟨hmissing, rfl⟩ | ⟨hfound, ⟨source, hopens, rfl⟩ | ⟨hclosed, htexts⟩⟩
      · have hlen : (text "no such file: ").length = 14 := by decide
        rw [List.forall_mem_singleton, List.length_append, List.length_append, hlen, List.length_singleton]
        refine ⟨fun h => ⟨fun _ => by omega, fun source hopens => absurd hopens (hmissing.not_opens source)⟩,
          fun h => ?_⟩
        have := h.1 hmissing
        omega
      · rw [catTexts_fit_iff]
        refine ⟨fun h => ⟨fun hmissing => absurd hmissing hfound, fun source' hopens' => ?_⟩,
          fun h => h.2 source hopens⟩
        rw [hopens'.unique hopens]
        exact h
      · refine iff_of_true (fun x hx => ?_) ⟨fun h => absurd h hfound,
          fun source h => absurd h (hclosed source)⟩
        obtain ⟨e, rfl | rfl⟩ := htexts x hx
        · exact length_name_append e (by decide)
        · exact length_name_append e (by decide)
    refine hfits.trans ⟨fun h => ⟨?_, fun _ => h.1, fun _ => h.2⟩, fun h => ⟨h.cat hcommand, h.file hcommand⟩⟩
    exact fun h => absurd (hcommand.symm.trans h) hcatLs

theorem Prints.catTexts (h : Prints k s firstArg texts) (hcat : CString.string s.line.bytes 0 = text "cat")
    {source : Fd}
    (hopens : s.Opens (s.argument firstArg).1 source) : texts = Shell.catTexts (k.read source) := by
  have hcatEcho : text "cat" ≠ text "echo" := by decide
  have hcatLs : text "cat" ≠ text "ls" := by decide
  rcases h with ⟨hcommand, -⟩ | ⟨hcommand, -⟩ | ⟨-, ⟨hmissing, -⟩ |
    ⟨-, ⟨source', hopens', rfl⟩ | ⟨hclosed, -⟩⟩⟩
  · exact absurd (hcat.symm.trans hcommand) hcatEcho
  · exact absurd (hcat.symm.trans hcommand) hcatLs
  · exact absurd hopens (hmissing.not_opens source)
  · rw [hopens.unique hopens']
  · exact absurd hopens (hclosed source)

/-! ## A whole line -/

/-- What `PrintToFD` formats. -/
def printed : Effect → Option (List UInt8)
  | .printToFD _ s => some s
  | _ => none

/-- The texts that were formatted between two states. -/
def printedSince (t t' : Shell) : List (List UInt8) := (t'.effects.drop t.effects.length).filterMap printed

/-- The state in which the command is run, if the redirection succeeds. -/
def dispatched (k : Kernel) (t : Shell) : Option Shell := do
  let (goesOn, t₁) ← t.located.redirect t.redirChar
  if goesOn then some (t₁.startPipe k t.pipeChar).2 else none

/-- `cat` writes the bytes of what it reads if none of them is zero. -/
def CopiesFile (k : Kernel) (t t' : Shell) : Prop :=
  ∀ s ∈ t.dispatched k, t.command = text "cat" → ∀ source, s.Opens (s.argument t.firstArg).1 source →
    0 ∉ k.read source → (printedSince t t').flatten = k.read source

theorem printedSince_eq {es : List Effect} (h : t'.effects = t.effects ++ es) :
    printedSince t t' = es.filterMap printed := by
  rw [printedSince, h, List.drop_left]

/-- A redirection prints nothing, or one short text. -/
theorem redirectTo_effects {dest : Path} {goesOn : Bool} (h : t.redirectTo dest = some (goesOn, t')) :
    t'.lastExitCode = t.lastExitCode ∧ ∃ es : List Effect, t'.effects = t.effects ++ es ∧
    (goesOn = true → es = []) ∧
      ∀ x ∈ es.filterMap printed, x.length ≤ 127 := by
  obtain ⟨⟨file, postSlash⟩, -, h⟩ := Option.bind_eq_some_iff.mp h
  cases file with
  | none =>
    obtain ⟨⟨newFile, vol⟩, -, h⟩ := Option.bind_eq_some_iff.mp h
    simp only at h
    split at h
    · cases h
      refine ⟨rfl, [_], rfl, Bool.noConfusion, fun x hx => ?_⟩
      obtain rfl := List.mem_singleton.mp hx
      rw [List.length_append, List.length_append]
      have := length_errorName newFile.error
      have htext : (text "failed to create a redirect file: ").length = 34 := by decide
      rw [htext, List.length_singleton]
      omega
    · obtain ⟨entry, -, h⟩ := Option.bind_eq_some_iff.mp h
      cases h
      exact ⟨rfl, [], (List.append_nil _).symm, fun _ => rfl, fun x hx => by cases hx⟩
  | some r =>
    simp only at h
    split at h
    · cases h
      refine ⟨rfl, [_], rfl, Bool.noConfusion, fun x hx => ?_⟩
      obtain rfl := List.mem_singleton.mp hx
      decide
    · cases h
      exact ⟨rfl, [], (List.append_nil _).symm, fun _ => rfl, fun x hx => by cases hx⟩

theorem redirect_effects {mark : Pointer} {goesOn : Bool} (h : t.redirect mark = some (goesOn, t')) :
    t'.lastExitCode = t.lastExitCode ∧ ∃ es : List Effect, t'.effects = t.effects ++ es ∧
    (goesOn = true → es = []) ∧
      ∀ x ∈ es.filterMap printed, x.length ≤ 127 := by
  cases mark with
  | none =>
    cases h
    exact ⟨rfl, [], (List.append_nil _).symm, fun _ => rfl, fun x hx => by cases hx⟩
  | some mark =>
    have heffects := redirectTo_effects h
    exact heffects

theorem startPipe_effects (k : Kernel) (t : Shell) (mark : Pointer) : ∃ es : List Effect,
    (t.startPipe k mark).2.effects = t.effects ++ es ∧ es.filterMap printed = [] := by
  cases mark with
  | none => exact ⟨[], (List.append_nil _).symm, rfl⟩
  | some mark => exact ⟨[_], rfl, rfl⟩

theorem waitPipe_effects (k : Kernel) (t : Shell) (subtaskId : Option Nat) (exitCode : Int) :
    ∃ es : List Effect,
    (t.waitPipe k subtaskId exitCode).2.effects = t.effects ++ es ∧ es.filterMap printed = [] := by
  cases subtaskId with
  | none => exact ⟨[], (List.append_nil _).symm, rfl⟩
  | some id => exact ⟨[_, _], List.append_assoc _ [_] [_], rfl⟩

/-- The argument is behind the beginning of the line. -/
theorem length_argument (s t : Shell) : (s.argument t.firstArg).1.length ≤ 127 := by
  cases hq : t.firstArg with
  | none => exact Nat.zero_le _
  | some q =>
    rw [firstArg, LineBuf.locate_firstArg] at hq
    obtain ⟨p, -, rfl⟩ := Option.map_eq_some_iff.mp hq
    have hge := CString.le_skip isspace (t.line.bytes.set p 0) (p + 1)
    have hle := (List.takeWhile_sublist (l := s.line.bytes.drop
        (CString.skip isspace (t.line.bytes.set p 0) (p + 1)))
      (· ≠ 0)).length_le
    rw [List.length_drop, s.line.length_bytes, kLineMax] at hle
    have hlen : (s.argument (some (CString.skip isspace (t.line.bytes.set p 0)
        (p + 1)))).1.length ≤ 128 - _ := hle
    omega

/-- The texts of a line with a built-in command fit, and `cat` copies its file, if and only if the texts of
the command fit where it is run. -/
theorem executeLine_fits_iff (hcode : -2 ^ 31 ≤ t.lastExitCode ∧ t.lastExitCode < 2 ^ 31)
    (hcommand : t.command ∈ builtins)
    (h : t.executeLine k = some t') :
    ((∀ x ∈ printedSince t t', x.length ≤ 127) ∧ CopiesFile k t t') ↔
      ∀ s ∈ t.dispatched k, CommandFits k s t.firstArg := by
  rcases executeLine_cases h with hredirect | ⟨t₁, exitCode, t₂, hredirect, hrun, ht'⟩
  · have hnone : t.dispatched k = none := by rw [dispatched, hredirect]; rfl
    obtain ⟨-, es, hes, -, hfit⟩ := redirect_effects hredirect
    rw [CopiesFile, hnone, printedSince_eq (t := t) hes]
    exact iff_of_true ⟨hfit, fun s hs => by cases hs⟩ fun s hs => by cases hs
  · obtain ⟨hcode₁, es, hes, hnil, -⟩ := redirect_effects hredirect
    rw [hnil rfl, List.append_nil] at hes
    have hsome : t.dispatched k = some (t₁.startPipe k t.pipeChar).2 := by rw [dispatched, hredirect]; rfl
    have hline : (t₁.startPipe k t.pipeChar).2.line = t.cutLine := by
      rw [startPipe_line, redirect_line hredirect, cutLine]
    have hcode₂ : (t₁.startPipe k t.pipeChar).2.lastExitCode = t.lastExitCode := by
      rw [← show t.located.lastExitCode = t.lastExitCode from rfl, ← hcode₁]
      cases t.pipeChar <;> rfl
    have hstring : CString.string (t₁.startPipe k t.pipeChar).2.line.bytes 0 = t.command := by
      rw [hline, string_cutLine]
    obtain ⟨fd, texts, htexts, hprints⟩ := runCommand_prints (hstring.symm ▸ hcommand) hrun
    obtain ⟨ps, hps, hquiet⟩ := startPipe_effects k t₁ t.pipeChar
    obtain ⟨ws, hws, hquiet'⟩ := waitPipe_effects k t₂ (t₁.startPipe k t.pipeChar).1 exitCode
    have heffects : t'.effects = t.effects ++ (ps ++ texts.map (.printToFD fd) ++ ws) := by
      rw [ht']
      show (t₂.waitPipe k (t₁.startPipe k t.pipeChar).1 exitCode).2.effects = _
      rw [hws, htexts, hps, hes]
      simp [located]
    have hprinted : printedSince t t' = texts := by
      rw [printedSince_eq heffects, List.filterMap_append, List.filterMap_append, hquiet, hquiet',
        List.nil_append,
        List.append_nil, List.filterMap_map]
      exact List.filterMap_some
    have hcopies : CopiesFile k t t' := by
      intro s hs hcat source hopens hzero
      rw [hsome] at hs
      obtain rfl := Option.some.inj hs
      rw [hprinted, hprints.catTexts (hstring.trans hcat) hopens, flatten_catTexts hzero]
    rw [and_iff_left hcopies, hprinted, hsome, hprints.fit_iff (hcode₂.symm ▸ hcode) (length_argument _ t)]
    simp

end Shell

namespace Terminal

variable {t t' : Terminal} {k : Kernel} {outputs : List Output} {keycode : UInt8}

/-- At Enter behind a line with `echo`, `ls` or `cat`, each text fits into the buffer of `PrintToFD` and
`cat` copies its file, if and only if the texts of the command fit where it is run. -/
theorem enter_fits_iff (hcode : -2 ^ 31 ≤ t.shell.lastExitCode ∧ t.shell.lastExitCode < 2 ^ 31)
    (hcommand : t.shell.terminated.command ∈ Shell.builtins)
    (h : t.inputKey k outputs keycode 0x0a = some t') :
    ((∀ x ∈ Shell.printedSince t.shell t'.shell, x.length ≤ 127) ∧
    Shell.CopiesFile k t.shell.terminated t'.shell) ↔
      ∀ s ∈ t.shell.terminated.dispatched k, Shell.CommandFits k s t.shell.terminated.firstArg :=
  Shell.executeLine_fits_iff (t := t.shell.terminated) hcode hcommand (enter_shell h)

theorem enter_fits_iff_echo : ∃ t', (typed (text "echo a")).inputKey quiet [] 0 0x0a = some t' ∧
    (((∀ x ∈ Shell.printedSince (typed (text "echo a")).shell t'.shell, x.length ≤ 127) ∧
      Shell.CopiesFile quiet (typed (text "echo a")).shell.terminated t'.shell) ↔
        ∀ s ∈ (typed (text "echo a")).shell.terminated.dispatched quiet,
          Shell.CommandFits quiet s (typed (text "echo a")).shell.terminated.firstArg) := by
  have hsome : ((typed (text "echo a")).inputKey quiet [] 0 0x0a).isSome = true := by decide +kernel
  obtain ⟨t', ht'⟩ := Option.isSome_iff_exists.mp hsome
  exact ⟨t', ht', enter_fits_iff (by decide +kernel) (by decide +kernel) ht'⟩

/-- `ls` with the name of no file that is 100 bytes long. -/
def lsMissing : Terminal := typed (text "ls " ++ List.replicate 100 0x61)

/-- The message about the missing file is longer than the buffer. -/
theorem not_enter_fits : ∃ t', lsMissing.inputKey quiet [] 0 0x0a = some t' ∧
    ¬∀ x ∈ Shell.printedSince lsMissing.shell t'.shell, x.length ≤ 127 := by
  have hlong : (lsMissing.inputKey quiet [] 0 0x0a).map
      (fun t' : Terminal => (Shell.printedSince lsMissing.shell t'.shell).all (·.length ≤ 127)) =
      some false := by
    decide +kernel
  obtain ⟨t', ht', hfalse⟩ := Option.map_eq_some_iff.mp hlong
  refine ⟨t', ht', fun hall => ?_⟩
  rw [List.all_eq_true.mpr fun x hx => decide_eq_true (hall x hx)] at hfalse
  cases hfalse

end Terminal

end MikanOS.CommandLine
