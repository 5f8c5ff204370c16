import MikanOS.Terminal.Splitting

/-! # The arguments of a command

`MakeArgVector` of `terminal.cpp`, which cuts the line of the terminal into words in place and copies these to
the page of the arguments. A pointer into `linebuf_` or `argbuf` is the index of what it points to. -/

namespace MikanOS.CommandLine

open CString

/-- `argv` and `argbuf`, with `argc` and `argbuf_index`, and the bytes that `command` and `first_arg` point
into. -/
structure ArgVector where
  line : List UInt8
  argv : List Nat
  argbuf : List UInt8
  argc : Nat
  argbufIndex : Nat

namespace ArgVector

variable (a : ArgVector) (argvLen argbufLen : Nat)

/-- `push_to_argv`. A store behind `argv` or `argbuf` gives no result. -/
def push (s : Nat) : Option (Error × ArgVector) :=
  if argvLen ≤ a.argc ∨ argbufLen ≤ a.argbufIndex then some (.kFull, a)
  else if a.argv.length ≤ a.argc then none
  else do
    let arg := string a.line s
    let argbuf ← storeBytes a.argbuf a.argbufIndex (arg ++ [0])
    some (.kSuccess, { a with
      argv := a.argv.set a.argc a.argbufIndex
      argbuf
      argc := a.argc + 1
      argbufIndex := a.argbufIndex + (arg.length + 1) })

/-- The condition of the inner loop: the word goes on. -/
def inWord (ch : UInt8) : Bool := !isspace ch && ch ≠ 0

/-- The loop over the words from `p` on. The first number bounds the turns. -/
def pushWords : (turns p : Nat) → ArgVector → Option (WithError Nat × ArgVector)
  | 0, _, _ => none
  | turns + 1, p, a =>
    let arg := skip isspace a.line p
    if a.line.getD arg 0 = 0 then some (⟨a.argc, .kSuccess⟩, a)
    else do
      let p := skip inWord a.line arg
      let isEnd := a.line.getD p 0 = 0
      let (err, a) ← push { a with line := a.line.set p 0 } argvLen argbufLen arg
      if err ≠ .kSuccess then some (⟨a.argc, err⟩, a)
      else if isEnd then some (⟨a.argc, .kSuccess⟩, a)
      else pushWords turns (p + 1) a

end ArgVector

/-- `MakeArgVector`. -/
def makeArgVector (line : List UInt8) (command : Nat) (firstArg : Pointer) (argv : List Nat) (argvLen : Nat)
    (argbuf : List UInt8) (argbufLen : Nat) : Option (WithError Nat × ArgVector) := do
  let (err, a) ← ArgVector.push ⟨line, argv, argbuf, 0, 0⟩ argvLen argbufLen command
  if err ≠ .kSuccess then some (⟨a.argc, err⟩, a)
  else
    match firstArg with
    | none => some (⟨a.argc, .kSuccess⟩, a)
    | some p => a.pushWords argvLen argbufLen (line.length + 1) p

/-! ## Strings that lie one behind the other -/

section

variable {entries : List (List UInt8)} {entry back : List UInt8} {k : Nat}

/-- Strings with a zero behind each. -/
def packed (entries : List (List UInt8)) : List UInt8 := entries.flatMap (· ++ [0])

theorem packed_append (entries : List (List UInt8)) (entry : List UInt8) :
    packed (entries ++ [entry]) = packed entries ++ (entry ++ [0]) := by
  rw [packed, List.flatMap_append, List.flatMap_singleton]
  rfl

/-- A string is found where those in front of it end. -/
theorem packed_split (hk : entries[k]? = some entry) :
    ∃ rest, packed entries = packed (entries.take k) ++ (entry ++ 0 :: rest) := by
  refine ⟨packed (entries.drop (k + 1)), ?_⟩
  obtain ⟨hlt, rfl⟩ := List.getElem?_eq_some_iff.mp hk
  conv_lhs => rw [← List.take_append_drop k entries, packed, List.flatMap_append,
    List.drop_eq_getElem_cons hlt, List.flatMap_cons]
  rw [List.append_assoc]
  rfl

end

namespace ArgVector

variable {a a' : ArgVector} {argvLen argbufLen : Nat} {entries : List (List UInt8)} {entry : List UInt8}
  {m : List UInt8} {p k n turns : Nat}

/-- The vector holds the entries, one behind the other. -/
structure Packs (argvLen argbufLen : Nat) (a : ArgVector) (entries : List (List UInt8)) : Prop where
  argc : a.argc = entries.length
  argbufIndex : a.argbufIndex = (packed entries).length
  argv : ∀ k < entries.length, a.argv[k]? = some (packed (entries.take k)).length
  argbuf : ∃ back, a.argbuf = packed entries ++ back
  length_argv : a.argv.length = argvLen
  length_argbuf : a.argbuf.length = argbufLen

theorem push_full (P : Packs argvLen argbufLen a entries) (h : argvLen ≤ entries.length) :
    a.push argvLen argbufLen p = some (.kFull, a) := by
  rw [push, if_pos (.inl (P.argc ▸ h))]

/-- `push_to_argv` puts a string behind those that are there. -/
theorem Packs.push (P : Packs argvLen argbufLen a entries) (hargc : entries.length < argvLen)
    (hroom : (packed entries).length + (string a.line p).length < argbufLen) :
    ∃ a', a.push argvLen argbufLen p = some (.kSuccess, a') ∧ a'.line = a.line ∧
      Packs argvLen argbufLen a' (entries ++ [string a.line p]) := by
  obtain ⟨back, hback⟩ := P.argbuf
  have hlength := P.length_argbuf
  rw [hback, List.length_append] at hlength
  generalize hs : string a.line p = s at *
  have hsplit : a.argbuf = packed entries ++ (back.take (s.length + 1) ++ back.drop (s.length + 1)) := by
    rw [List.take_append_drop, hback]
  have hold : (back.take (s.length + 1)).length = (s ++ [0]).length := by
    rw [List.length_take, List.length_append, List.length_singleton]
    omega
  have hstore : storeBytes a.argbuf a.argbufIndex (s ++ [0]) =
      some (packed entries ++ ((s ++ [0]) ++ back.drop (s.length + 1))) := by
    rw [hsplit, P.argbufIndex]
    exact storeBytes_append rfl hold
  refine ⟨{ a with
      argv := a.argv.set a.argc a.argbufIndex
      argbuf := packed entries ++ ((s ++ [0]) ++ back.drop (s.length + 1))
      argc := a.argc + 1
      argbufIndex := a.argbufIndex + (s.length + 1) }, ?_, rfl, ?_⟩
  · have hnot : ¬(argvLen ≤ a.argc ∨ argbufLen ≤ a.argbufIndex) := by
      rw [P.argc, P.argbufIndex]
      omega
    have hargv : ¬a.argv.length ≤ a.argc := by
      rw [P.length_argv, P.argc]
      omega
    rw [ArgVector.push, if_neg hnot, if_neg hargv, hs]
    simp only [hstore, Option.bind_eq_bind, Option.bind_some]
  · refine ⟨?_, ?_, fun k hk => ?_, ⟨back.drop (s.length + 1), ?_⟩, ?_, ?_⟩
    · rw [P.argc, List.length_append, List.length_singleton]
    · rw [P.argbufIndex, packed_append, List.length_append, List.length_append, List.length_singleton]
    · rw [List.length_append, List.length_singleton] at hk
      rw [List.getElem?_set, P.argc]
      by_cases hlast : entries.length = k
      · rw [if_pos hlast, if_pos (P.length_argv ▸ hargc), P.argbufIndex, ← hlast, List.take_left]
      · rw [if_neg hlast, P.argv k (by omega), List.take_append_of_le_length (by omega)]
    · rw [packed_append]
      exact (List.append_assoc ..).symm
    · rw [List.length_set, P.length_argv]
    · rw [List.length_append, List.length_append, ← hold, List.length_take, List.length_drop]
      omega

theorem Packs.setLine (P : Packs argvLen argbufLen a entries) (line : List UInt8) :
    Packs argvLen argbufLen { a with line } entries :=
  ⟨P.argc, P.argbufIndex, P.argv, P.argbuf, P.length_argv, P.length_argbuf⟩

/-! ## The words -/

theorem getD_eq_head? (m : List UInt8) (p : Nat) : m.getD p 0 = (string m p).head?.getD 0 := by
  rw [string, List.getD_eq_getElem?_getD, ← List.head?_drop]
  cases m.drop p with
  | nil => rfl
  | cons c m =>
    by_cases hc : c = 0
    · rw [List.takeWhile_cons_of_neg (by simp [hc]), hc]
      rfl
    · rw [List.takeWhile_cons_of_pos (by simp [hc])]
      rfl

/-- The place behind a word. -/
theorem skip_inWord (m : List UInt8) (p : Nat) :
    skip inWord m p = p + ((string m p).takeWhile (!isspace ·)).length := by
  rw [skip, string, List.takeWhile_takeWhile]
  congr 3
  funext ch
  rw [inWord, Bool.decide_and, Bool.decide_coe, Bool.decide_coe]

/-- A word with the text behind it, and what is there once the byte behind the word is a zero. -/
theorem cut_word {w rest : List UInt8} (h : string m p = w ++ rest) (hne : w ≠ []) :
    m.getD p 0 ≠ 0 ∧ m.getD (p + w.length) 0 = rest.head?.getD 0 ∧ string (m.set (p + w.length) 0) p = w ∧
      ∀ d rest', rest = d :: rest' →
        d ≠ 0 ∧ string (m.set (p + w.length) 0) (p + w.length + 1) = rest' := by
  have hnonzero := zero_notMem_string m p
  rw [h] at hnonzero
  have hbehind : string m (p + w.length) = rest := by
    rw [string_add (by rw [h, List.length_append]; omega), h, List.drop_left]
  refine ⟨?_, by rw [getD_eq_head?, hbehind], ?_, fun d rest' hrest => ⟨fun h0 => ?_, ?_⟩⟩
  · obtain ⟨c, w, rfl⟩ := List.exists_cons_of_ne_nil hne
    rw [getD_eq_head?, h]
    exact fun h0 => hnonzero (h0 ▸ List.mem_cons_self ..)
  · rw [string_set, if_neg (by omega), h, Nat.add_sub_cancel_left, List.take_left]
  · rw [hrest, h0] at hnonzero
    exact hnonzero (List.mem_append_right _ (List.mem_cons_self ..))
  · rw [string_set, if_pos (Nat.lt_succ_self _), Nat.add_assoc, string_add, h, ← List.drop_drop, List.drop_left,
      hrest]
    · rfl
    · rw [h, hrest, List.length_append, List.length_cons]
      omega

/-- The loop pushes the words of the text that is left, as long as there is a place for them. -/
theorem pushWords_spec (P : Packs argvLen argbufLen a entries) (hargc : entries.length ≤ argvLen)
    (hzero : a.line[n]? = some 0) (hp : p ≤ n) (hturns : (string a.line p).length < turns)
    (hroom : (packed entries).length + (string a.line p).length < argbufLen) :
    ∃ r a', a.pushWords argvLen argbufLen turns p = some (r, a') ∧
      (argvLen < entries.length + (words (string a.line p)).length ∧ r.error = .kFull ∨
        entries.length + (words (string a.line p)).length ≤ argvLen ∧
          r = ⟨entries.length + (words (string a.line p)).length, .kSuccess⟩ ∧
          Packs argvLen argbufLen a' (entries ++ words (string a.line p))) := by
  induction turns generalizing a entries p with
  | zero => exact absurd hturns (Nat.not_lt_zero _)
  | succ turns ih =>
    have harg : string a.line (skip isspace a.line p) = (string a.line p).dropWhile isspace :=
      string_skip rfl a.line p
    have hlength := (List.dropWhile_sublist (l := string a.line p) isspace).length_le
    rw [pushWords]
    rcases words_cases (string a.line p) with ⟨hall, hwords, -⟩ | ⟨hne, rest, hrest, hsplit, hwords⟩
    · -- only white space is left
      have hget := getD_eq_head? a.line (skip isspace a.line p)
      rw [harg, List.dropWhile_eq_nil_iff.mpr hall] at hget
      refine ⟨_, a, if_pos hget, .inr ?_⟩
      rw [hwords, List.length_nil, Nat.add_zero, List.append_nil, P.argc]
      exact ⟨hargc, rfl, P⟩
    · have hend : skip inWord a.line (skip isspace a.line p) =
          skip isspace a.line p + (firstWord (string a.line p)).length := by
        rw [skip_inWord, harg]
        rfl
      have hle := add_length_string_le hzero (@skip_le _ _ _ isspace rfl hzero hp)
      rw [hwords]
      rw [hsplit] at harg hlength
      rw [harg] at hle
      generalize firstWord (string a.line p) = w at *
      generalize skip isspace a.line p = arg at *
      rw [List.length_append] at hle hlength
      obtain ⟨hc, hisEnd, hcut, hbehind⟩ := cut_word harg hne
      have hpos := List.length_pos_iff.mpr hne
      simp only [if_neg hc, hend]
      have P₁ := P.setLine (a.line.set (arg + w.length) 0)
      rcases Nat.lt_or_eq_of_le hargc with hlt | hfull
      · obtain ⟨a', hpush, hline, P'⟩ := @Packs.push _ _ _ _ arg P₁ hlt (by rw [hcut]; omega)
        simp only [hpush, Option.bind_eq_bind, Option.bind_some, hisEnd]
        rw [hcut] at P'
        cases rest with
        | nil =>
          refine ⟨_, a', rfl, .inr ⟨hlt, ?_, P'⟩⟩
          rw [P'.argc, List.length_append]
          rfl
        | cons d rest =>
          obtain ⟨hd, hrest'⟩ := hbehind d rest rfl
          rw [show a.line.set (arg + w.length) 0 = a'.line from hline.symm] at hrest'
          rw [words_space (hrest d rfl)]
          rw [List.length_cons] at hle hlength
          obtain ⟨r, a'', hloop, hresult⟩ := @ih a' (entries ++ [w]) (arg + w.length + 1) P'
            (by rw [List.length_append]; exact hlt)
            (by rw [hline]; exact getElem?_zeroAt hzero (some (arg + w.length))) (by omega)
            (by rw [hrest']; omega)
            (by rw [hrest', packed_append, List.length_append, List.length_append, List.length_singleton]; omega)
          refine ⟨r, a'', ?_, ?_⟩
          · rw [if_neg (fun h => h rfl), List.head?_cons, Option.getD_some, if_neg hd]
            exact hloop
          · rw [hrest', List.length_append, List.length_singleton, List.append_assoc] at hresult
            rw [List.length_cons, Nat.add_comm (words rest).length 1, ← Nat.add_assoc]
            exact hresult
      · simp only [push_full P₁ hfull.ge, Option.bind_eq_bind, Option.bind_some]
        refine ⟨_, _, if_pos (by decide), .inl ⟨?_, rfl⟩⟩
        rw [List.length_cons]
        omega

/-- The elements of `argv` point to the entries, each of which ends with a zero inside `argbuf` and lies behind
the ones before it. -/
def Lists (argbufLen : Nat) (a : ArgVector) (entries : List (List UInt8)) : Prop :=
  ∀ (k : Nat) (entry : List UInt8), entries[k]? = some entry → ∃ p, a.argv[k]? = some p ∧
    string a.argbuf p = entry ∧ p + entry.length < argbufLen ∧ a.argbuf[p + entry.length]? = some 0 ∧
    ∀ j < k, ∀ q, a.argv[j]? = some q → q + (string a.argbuf q).length < p

/-- Where an entry lies. -/
theorem Packs.find (P : Packs argvLen argbufLen a entries) (hnonzero : ∀ entry ∈ entries, 0 ∉ entry)
    (hk : entries[k]? = some entry) :
    a.argv[k]? = some (packed (entries.take k)).length ∧
      string a.argbuf (packed (entries.take k)).length = entry ∧
      (packed (entries.take (k + 1))).length = (packed (entries.take k)).length + (entry.length + 1) ∧
      a.argbuf[(packed (entries.take k)).length + entry.length]? = some 0 := by
  obtain ⟨hlt, hget⟩ := List.getElem?_eq_some_iff.mp hk
  obtain ⟨back, hback⟩ := P.argbuf
  obtain ⟨rest, hrest⟩ := packed_split hk
  have hbytes : a.argbuf = packed (entries.take k) ++ (entry ++ 0 :: (rest ++ back)) := by
    rw [hback, hrest, List.append_assoc, List.append_assoc, List.cons_append]
  refine ⟨P.argv k hlt, ?_, ?_, ?_⟩
  · rw [hbytes, string_drop, List.drop_left, string_append_zero, List.takeWhile_eq_self_iff]
    exact fun c hc => decide_eq_true fun h => hnonzero entry (List.mem_of_getElem? hk) (h ▸ hc)
  · rw [List.take_add_one, hk, Option.toList_some, packed_append, List.length_append, List.length_append,
      List.length_singleton]
  · rw [hbytes, List.getElem?_append_right (Nat.le_add_right _ _), Nat.add_sub_cancel_left,
      List.getElem?_append_right (Nat.le_refl _), Nat.sub_self]
    rfl

theorem length_packed_take_le {j : Nat} (h : j ≤ k) :
    (packed (entries.take j)).length ≤ (packed (entries.take k)).length := by
  obtain ⟨d, rfl⟩ := Nat.exists_eq_add_of_le h
  rw [List.take_add, packed, packed, List.flatMap_append, List.length_append]
  exact Nat.le_add_right _ _

theorem Packs.lists (P : Packs argvLen argbufLen a entries) (hnonzero : ∀ entry ∈ entries, 0 ∉ entry) :
    a.Lists argbufLen entries := by
  intro k entry hk
  obtain ⟨hargv, hstring, hnext, hzero⟩ := P.find hnonzero hk
  refine ⟨_, hargv, hstring, ?_, hzero, fun j hj q hq => ?_⟩
  · rw [← P.length_argbuf]
    exact (List.getElem?_eq_some_iff.mp hzero).1
  · have hjlt : j < entries.length := hj.trans (List.getElem?_eq_some_iff.mp hk).1
    obtain ⟨hargv', hstring', hnext', -⟩ := P.find hnonzero (List.getElem?_eq_getElem hjlt)
    rw [hargv'] at hq
    obtain rfl := Option.some.inj hq
    rw [hstring']
    have hle := @length_packed_take_le entries k (j + 1) hj
    omega

end ArgVector

/-! ## The arguments of a line -/

open ArgVector

/-- The words of a text are made of its characters. -/
theorem mem_of_mem_words {s w : List UInt8} {c : UInt8} (hw : w ∈ words s) (hc : c ∈ w) : c ∈ s := by
  induction hn : s.length using Nat.strongRecOn generalizing s with
  | ind n ih =>
    rcases words_cases s with ⟨-, hwords, -⟩ | ⟨hne, rest, -, hsplit, hwords⟩
    · rw [hwords] at hw
      cases hw
    · have hsub := List.dropWhile_sublist (l := s) isspace
      rw [hsplit] at hsub
      rw [hwords] at hw
      rcases List.mem_cons.mp hw with rfl | hw
      · exact hsub.mem (List.mem_append_left _ hc)
      · have hlt : rest.length < n := by
          have hle := hsub.length_le
          have hpos := List.length_pos_iff.mpr hne
          rw [List.length_append] at hle
          omega
        exact hsub.mem (List.mem_append_right _ (ih rest.length hlt hw rfl))

/-- The entries of the vector for a line: its command and the words of its argument. -/
def Shell.arguments (t : Shell) : List (List UInt8) :=
  CString.string t.cutLine.bytes 0 :: words t.argumentText

theorem Shell.zero_notMem_arguments (t : Shell) : ∀ entry ∈ t.arguments, 0 ∉ entry := by
  intro entry hentry
  rcases List.mem_cons.mp hentry with rfl | hentry
  · exact zero_notMem_string _ _
  · intro h
    have hmem := mem_of_mem_words hentry h
    rw [argumentText] at hmem
    cases hq : t.firstArg with
    | none =>
      rw [hq] at hmem
      cases hmem
    | some q =>
      rw [hq] at hmem
      exact zero_notMem_string _ _ hmem

/-- Whatever line was typed, `MakeArgVector` gets a vector with the command and the words of the argument of
that line, unless these are more than 32. -/
theorem makeArgVector_words (t : Shell) {argv : List Nat} {argbuf : List UInt8} (hargv : argv.length = 32)
    (hargbuf : argbuf.length = 3840) :
    ∃ r a, makeArgVector t.terminated.cutLine.bytes 0 t.terminated.firstArg argv 32 argbuf 3840 = some (r, a) ∧
      (r.error = .kFull ↔ 32 < t.terminated.arguments.length) ∧
      (r.error ≠ .kFull → r = ⟨t.terminated.arguments.length, .kSuccess⟩ ∧
        a.Lists 3840 t.terminated.arguments) := by
  have H := t.terminated.sound_cutLine t.sound_terminated
  have hn : t.linebufIndex.val < 128 := t.linebufIndex.isLt
  have hnonzero := t.terminated.zero_notMem_arguments
  have hcommand := add_length_string_le H.zero (Nat.zero_le _)
  have P : Packs 32 3840 ⟨t.terminated.cutLine.bytes, argv, argbuf, 0, 0⟩ [] :=
    ⟨rfl, rfl, fun k hk => absurd hk (Nat.not_lt_zero k), ⟨argbuf, rfl⟩, hargv, hargbuf⟩
  have hempty : (packed []).length = 0 := rfl
  obtain ⟨a, hpush, hline, P₁⟩ := @Packs.push _ _ _ _ 0 P (by decide) (by rw [hempty]; simp only; omega)
  rw [makeArgVector, hpush]
  simp only [Option.bind_eq_bind, Option.bind_some, ne_eq, not_true_eq_false, if_false]
  cases hq : t.terminated.firstArg with
  | none =>
    have harguments : t.terminated.arguments = [CString.string t.terminated.cutLine.bytes 0] := by
      rw [Shell.arguments, Shell.argumentText, hq]
      rfl
    rw [harguments] at hnonzero ⊢
    exact ⟨_, a, rfl, iff_of_false Error.noConfusion (by simp), fun _ => ⟨by rw [P₁.argc]; rfl, P₁.lists hnonzero⟩⟩
  | some q =>
    have hqn : q ≤ t.linebufIndex.val := (t.sound_terminated.firstArg_le hq).2
    have hstring := add_length_string_le H.zero hqn
    have harguments : t.terminated.arguments = CString.string t.terminated.cutLine.bytes 0 ::
        words (CString.string t.terminated.cutLine.bytes q) := by
      rw [Shell.arguments, Shell.argumentText, hq]
      rfl
    have hlt : (CString.string t.terminated.cutLine.bytes q).length <
        t.terminated.cutLine.bytes.length + 1 := by
      rw [t.terminated.cutLine.length_bytes]
      exact Nat.lt_succ_of_le (by rw [kLineMax]; omega)
    have hroom : (packed ([] ++ [CString.string t.terminated.cutLine.bytes 0])).length +
        (CString.string t.terminated.cutLine.bytes q).length < 3840 := by
      rw [packed_append, List.length_append, List.length_append, hempty, List.length_singleton]
      omega
    obtain ⟨r, a', hloop, hresult⟩ := @pushWords_spec a 32 3840 _ q t.linebufIndex
      (t.terminated.cutLine.bytes.length + 1) P₁ (by simp) (hline ▸ H.zero) hqn (hline ▸ hlt)
      (by rw [hline]; exact hroom)
    refine ⟨r, a', hloop, ?_⟩
    rw [hline] at hresult
    rw [harguments] at hnonzero ⊢
    have hlength : ∀ s : List UInt8, ([] ++ [s]).length + (words (CString.string t.terminated.cutLine.bytes q)).length
        = (words (CString.string t.terminated.cutLine.bytes q)).length + 1 := fun s => Nat.add_comm 1 _
    rw [hlength] at hresult
    rcases hresult with ⟨hfull, herror⟩ | ⟨hfits, rfl, P₂⟩
    · exact ⟨iff_of_true herror hfull, fun h => absurd herror h⟩
    · exact ⟨iff_of_false Error.noConfusion (Nat.not_lt.mpr hfits), fun _ => ⟨rfl, P₂.lists hnonzero⟩⟩

/-- Two arguments, with blanks in front of, between and behind them. -/
theorem makeArgVector_words_blanks : ∃ r a,
    makeArgVector (Terminal.typed (text "app  a  bc ")).shell.terminated.cutLine.bytes 0
      (Terminal.typed (text "app  a  bc ")).shell.terminated.firstArg (List.replicate 32 0) 32
      (List.replicate 3840 0) 3840 = some (r, a) ∧
    r = ⟨3, .kSuccess⟩ ∧ a.Lists 3840 [text "app", text "a", text "bc"] := by
  have harguments : (Terminal.typed (text "app  a  bc ")).shell.terminated.arguments =
      [text "app", text "a", text "bc"] := by decide +kernel
  obtain ⟨r, a, hmake, hfull, hlists⟩ := makeArgVector_words (Terminal.typed (text "app  a  bc ")).shell
    (List.length_replicate (n := 32) (a := 0)) (List.length_replicate (n := 3840) (a := 0))
  rw [harguments] at hfull hlists
  exact ⟨r, a, hmake, hlists (hfull.not.mpr (by decide))⟩

end MikanOS.CommandLine
