import MikanOS.Terminal.TypedLine

/-! # Pipes and redirections

What a typed line is cut into by the marks `|` and `>`, against the words that stand before and behind the
marks. -/

namespace MikanOS.CommandLine

open CString

/-- The words of a text. -/
abbrev words := Terminal.words

section

variable {s w : List UInt8} {c : UInt8}

theorem words_space (hc : isspace c = true) (s : List UInt8) : words (c :: s) = words s := by
  rw [words, Terminal.words, List.splitOnP_cons_eq_if_modifyHead, if_pos hc,
    List.filter_cons_of_neg (by simp)]
  rfl

/-- White space in front separates nothing. -/
theorem words_dropWhile (s : List UInt8) : words (s.dropWhile isspace) = words s := by
  induction s with
  | nil => rfl
  | cons c s ih =>
    cases hc : isspace c with
    | false => rw [List.dropWhile_cons_of_neg (by simp [hc])]
    | true => rw [List.dropWhile_cons_of_pos hc, ih, words_space hc]

theorem words_of_space (hs : ∀ c ∈ s, isspace c = true) : words s = [] := by
  rw [← words_dropWhile, List.dropWhile_eq_nil_iff.mpr hs]
  rfl

theorem words_single (hw : ∀ c ∈ w, isspace c = false) (hne : w ≠ []) : words w = [w] := by
  rw [words, Terminal.words, List.splitOnP_eq_singleton hw]
  simp [hne]

theorem words_word (hw : ∀ c ∈ w, isspace c = false) (hne : w ≠ []) (hc : isspace c = true) (s : List UInt8) :
    words (w ++ c :: s) = w :: words s := by
  rw [words, Terminal.words, List.splitOnP_append_cons_of_forall_mem hw c hc,
    List.filter_cons_of_pos (by simpa using hne)]
  rfl

/-- The first word of a text. -/
def firstWord (s : List UInt8) : List UInt8 := (s.dropWhile isspace).takeWhile (!isspace ·)

theorem not_isspace_of_mem_firstWord (h : c ∈ firstWord s) : isspace c = false := by
  simpa using List.mem_takeWhile_imp h

/-- A text is white space, or begins with its first word. -/
theorem words_cases (s : List UInt8) : (∀ c ∈ s, isspace c = true) ∧ words s = [] ∧ firstWord s = [] ∨
    firstWord s ≠ [] ∧ ∃ rest, (∀ c ∈ rest.head?, isspace c = true) ∧
    s.dropWhile isspace = firstWord s ++ rest ∧
      words s = firstWord s :: words rest := by
  cases hu : s.dropWhile isspace with
  | nil =>
    have hall := List.dropWhile_eq_nil_iff.mp hu
    exact .inl ⟨hall, words_of_space hall, by rw [firstWord, hu]; rfl⟩
  | cons c u =>
    have hc : isspace c = false := by
      have := List.head?_dropWhile_not isspace s
      rw [hu] at this
      simpa using this
    have hword : firstWord s = c :: u.takeWhile (!isspace ·) := by
      rw [firstWord, hu, List.takeWhile_cons_of_pos (by simp [hc])]
    have hne : firstWord s ≠ [] := by
      rw [hword]
      exact List.cons_ne_nil _ _
    have hsplit : c :: u = firstWord s ++ u.dropWhile (!isspace ·) := by
      rw [hword, List.cons_append, List.takeWhile_append_dropWhile]
    have hrest := List.head?_dropWhile_not (!isspace ·) u
    refine .inr ⟨hne, u.dropWhile (!isspace ·), fun d hd => ?_, hsplit, ?_⟩
    · rw [Option.mem_def.mp hd] at hrest
      simpa using hrest
    · rw [← words_dropWhile, hu, hsplit]
      cases hr : u.dropWhile (!isspace ·) with
      | nil =>
        rw [List.append_nil, words_single (fun d => not_isspace_of_mem_firstWord) hne, words_of_space]
        exact fun d hd => by cases hd
      | cons d r =>
        rw [hr] at hrest
        have hd : isspace d = true := by simpa using hrest
        rw [words_word (fun d => not_isspace_of_mem_firstWord) hne hd, words_space hd]

theorem headD_words (s : List UInt8) : (words s).headD [] = firstWord s := by
  rcases words_cases s with ⟨-, hwords, hfirst⟩ | ⟨-, rest, -, -, hwords⟩
  · rw [hwords, hfirst]
    rfl
  · rw [hwords]
    rfl

theorem firstWord_of_space (hs : ∀ c ∈ s, isspace c = true) : firstWord s = [] := by
  rw [firstWord, List.dropWhile_eq_nil_iff.mpr hs]
  rfl

theorem firstWord_eq {rest : List UInt8} (hs : s.dropWhile isspace = w ++ rest)
    (hw : ∀ c ∈ w, isspace c = false)
    (hrest : ∀ c ∈ rest.head?, isspace c = true) : firstWord s = w := by
  rw [firstWord, hs, List.takeWhile_append_of_pos fun c hc => by simp [hw c hc]]
  cases rest with
  | nil => simp
  | cons c rest => rw [List.takeWhile_cons_of_neg (by simp [hrest c rfl]), List.append_nil]

theorem space_of_firstWord (h : firstWord s = []) : ∀ c ∈ s, isspace c = true := by
  rcases words_cases s with ⟨hall, -⟩ | ⟨hne, -⟩
  · exact hall
  · exact absurd h hne

end

/-! ## The marks -/

/-- `|` or `>`. -/
def isMark (c : UInt8) : Bool := c = 0x3e || c = 0x7c

theorem isMark_of_isspace {c : UInt8} (h : isspace c = true) : isMark c = false := by
  rw [isMark, Bool.or_eq_false_iff, decide_eq_false_iff_not, decide_eq_false_iff_not]
  constructor
  · rintro rfl
    cases h
  · rintro rfl
    cases h

/-- The text in front of the first `c`. -/
def before (c : UInt8) (s : List UInt8) : List UInt8 := s.takeWhile (· ≠ c)

/-- The text behind the first `c`. -/
def behind (c : UInt8) (s : List UInt8) : List UInt8 := (s.dropWhile (· ≠ c)).tail

/-- The text in front of the first mark. -/
def left (line : List UInt8) : List UInt8 := line.takeWhile (!isMark ·)

section

variable {s s' : List UInt8} {c : UInt8} {g : UInt8 → Bool}

theorem head?_dropWhile (h : c ∈ (s.dropWhile g).head?) : g c = false := by
  have := List.head?_dropWhile_not g s
  rw [Option.mem_def.mp h] at this
  simpa using this

theorem isspace_of_eq_blank (h : decide (c ≠ blank) = false) : isspace c = true := by
  obtain rfl : c = blank := by simpa using h
  rfl

theorem dropWhile_word {w : List UInt8} (hw : ∀ c ∈ w, isspace c = false) (hne : w ≠ []) (rest : List UInt8) :
    (w ++ rest).dropWhile isspace = w ++ rest := by
  obtain ⟨c, w, rfl⟩ := List.exists_cons_of_ne_nil hne
  rw [List.cons_append, List.dropWhile_cons_of_neg (by simp [hw c (List.mem_cons_self ..)])]

/-- The text in front of the first blank is the first word. -/
theorem before_blank_iff (s : List UInt8) : before blank s = firstWord s ↔
    (∀ c ∈ before blank s, isspace c = false) ∧ (before blank s = [] → ∀ c ∈ s, isspace c = true) := by
  constructor
  · intro h
    rw [h]
    exact ⟨fun c => not_isspace_of_mem_firstWord, space_of_firstWord⟩
  · rintro ⟨hword, hnil⟩
    by_cases hempty : before blank s = []
    · rw [hempty, firstWord_of_space (hnil hempty)]
    · have hs : before blank s ++ s.dropWhile (· ≠ blank) = s := List.takeWhile_append_dropWhile
      have hdrop := dropWhile_word hword hempty (s.dropWhile (· ≠ blank))
      rw [hs] at hdrop
      exact (firstWord_eq (hdrop.trans hs.symm) hword fun c hc => isspace_of_eq_blank
        (head?_dropWhile hc)).symm

/-- A text that was cut at a blank and has no leading white space is the first word in front of a mark. -/
theorem target_iff (hg : ∀ c, g c = false → isspace c = true) {mark : UInt8} (hmark : isspace mark = false)
    (s : List UInt8) :
    (s.takeWhile g).dropWhile isspace = firstWord (before mark s) ↔
      (∀ c ∈ (s.takeWhile g).dropWhile isspace, isspace c = false ∧ c ≠ mark) ∧
        ((s.takeWhile g).dropWhile isspace = [] → ∀ c ∈ before mark s, isspace c = true) := by
  constructor
  · intro h
    rw [h]
    refine ⟨fun c hc => ⟨not_isspace_of_mem_firstWord hc, ?_⟩, space_of_firstWord⟩
    have hmem : c ∈ before mark s := (List.dropWhile_sublist _).mem ((List.takeWhile_sublist _).mem hc)
    simpa using List.mem_takeWhile_imp hmem
  · rintro ⟨hword, hnil⟩
    by_cases hempty : (s.takeWhile g).dropWhile isspace = []
    · rw [hempty, firstWord_of_space (hnil hempty)]
    · -- the mark is not in what was cut off
      have hbefore : before mark s = s.takeWhile g ++ (s.dropWhile g).takeWhile (· ≠ mark) := by
        conv_lhs => rw [before, ← List.takeWhile_append_dropWhile (p := g) (l := s)]
        refine List.takeWhile_append_of_pos fun c hc => decide_eq_true ?_
        rw [← List.takeWhile_append_dropWhile (p := isspace) (l := s.takeWhile g)] at hc
        rcases List.mem_append.mp hc with hc | hc
        · rintro rfl
          rw [List.mem_takeWhile_imp hc] at hmark
          cases hmark
        · exact (hword c hc).2
      have hdrop : (before mark s).dropWhile isspace =
          (s.takeWhile g).dropWhile isspace ++ (s.dropWhile g).takeWhile (· ≠ mark) := by
        rw [hbefore, List.dropWhile_append, if_neg (by simpa using hempty)]
      have hrest : ∀ c ∈ ((s.dropWhile g).takeWhile (· ≠ mark)).head?, isspace c = true := by
        intro c hc
        refine hg c (head?_dropWhile (s := s) ?_)
        cases hr : s.dropWhile g with
        | nil =>
          rw [hr] at hc
          cases hc
        | cons d r =>
          rw [hr, List.takeWhile_cons] at hc
          split at hc
          · exact hc
          · cases hc
      exact (firstWord_eq hdrop (fun c hc => (hword c hc).1) hrest).symm

/-- A text that is cut at its first blank stays the same but for white space, if and only if there is
nothing to cut. -/
theorem dropWhile_before_blank_iff (s : List UInt8) :
    (before blank s).dropWhile isspace = s.dropWhile isspace ↔ blank ∉ s ∨ ∀ c ∈ s, isspace c = true := by
  constructor
  · intro h
    by_contra hnot
    rw [not_or, not_not] at hnot
    obtain ⟨hmem, hspace⟩ := hnot
    have hs : before blank s ++ s.dropWhile (· ≠ blank) = s := List.takeWhile_append_dropWhile
    have hrest : s.dropWhile (· ≠ blank) ≠ [] := fun hnil => by
      have := List.dropWhile_eq_nil_iff.mp hnil blank hmem
      simp at this
    by_cases hempty : (before blank s).dropWhile isspace = []
    · rw [hempty] at h
      exact hspace (List.dropWhile_eq_nil_iff.mp h.symm)
    · conv_rhs at h => rw [← hs, List.dropWhile_append, if_neg (by simpa using hempty)]
      exact hrest (List.self_eq_append_right.mp h)
  · rintro (hmem | hspace)
    · rw [before, List.takeWhile_eq_self_iff.mpr]
      exact fun c hc => decide_eq_true fun h => hmem (h ▸ hc)
    · rw [List.dropWhile_eq_nil_iff.mpr hspace, List.dropWhile_eq_nil_iff.mpr]
      exact fun c hc => hspace c ((List.takeWhile_sublist _).mem hc)

/-- What stands behind the first blank of the text in front of the marks. -/
theorem takeWhile_behind (hmem : blank ∈ left s) :
    (behind blank s).takeWhile (!isMark ·) = behind blank (left s) := by
  have hs : left s ++ s.dropWhile (!isMark ·) = s := List.takeWhile_append_dropWhile
  have hne : (left s).dropWhile (· ≠ blank) ≠ [] := fun hnil => by
    have := List.dropWhile_eq_nil_iff.mp hnil blank hmem
    simp at this
  have hbehind : behind blank s = behind blank (left s) ++ s.dropWhile (!isMark ·) := by
    conv_lhs => rw [behind, ← hs, List.dropWhile_append, if_neg (by simpa using hne),
    List.tail_append_of_ne_nil hne]
    rfl
  have hnot : ∀ c ∈ behind blank (left s), (!isMark c) = true := by
    intro c hc
    have hc : c ∈ left s := (List.dropWhile_sublist _).mem (List.mem_of_mem_tail hc)
    exact List.mem_takeWhile_imp (p := (!isMark ·)) hc
  rw [hbehind, List.takeWhile_append_of_pos hnot]
  have hrest : (s.dropWhile (!isMark ·)).takeWhile (!isMark ·) = [] := by
    cases hr : s.dropWhile (!isMark ·) with
    | nil => rfl
    | cons c r => exact List.takeWhile_cons_of_neg (by simp [head?_dropWhile (s := s) (by rw [hr]; rfl)])
  rw [hrest, List.append_nil]

/-- The arguments, where the command is the first word. -/
theorem args_iff (hcommand : before blank (left s) = firstWord (left s)) :
    words ((behind blank s).takeWhile (!isMark ·)) = (words (left s)).tail ↔
      blank ∈ left s ∨ ∀ c ∈ (behind blank s).takeWhile (!isMark ·), isspace c = true := by
  by_cases hmem : blank ∈ left s
  · refine iff_of_true ?_ (.inl hmem)
    have hs : before blank (left s) ++ blank :: behind blank (left s) = left s := by
      rw [behind, before]
      cases hr : (left s).dropWhile (· ≠ blank) with
      | nil =>
        have := List.dropWhile_eq_nil_iff.mp hr blank hmem
        simp at this
      | cons c r =>
        have hc : decide (c ≠ blank) = false := head?_dropWhile (s := left s) (by rw [hr]; rfl)
        obtain rfl : c = blank := by simpa using hc
        rw [List.tail_cons, ← hr, List.takeWhile_append_dropWhile]
    rw [takeWhile_behind hmem]
    rcases words_cases (left s) with ⟨hall, hwords, -⟩ | ⟨hne, -⟩
    · rw [hwords, words_of_space, List.tail_nil]
      exact fun c hc => hall c ((List.dropWhile_sublist _).mem (List.mem_of_mem_tail hc))
    · rw [← hcommand] at hne
      conv_rhs => rw [← hs, words_word (fun c hc => not_isspace_of_mem_firstWord (hcommand ▸ hc)) hne rfl]
      rfl
  · have htail : (words (left s)).tail = [] := by
      rcases words_cases (left s) with ⟨-, hwords, -⟩ | ⟨-, rest, -, hsplit, hwords⟩
      · rw [hwords, List.tail_nil]
      · have hself : before blank (left s) = left s := by
          rw [before, List.takeWhile_eq_self_iff]
          exact fun c hc => decide_eq_true fun h => hmem (h ▸ hc)
        have hlen := congrArg List.length hsplit
        have hle := (List.dropWhile_sublist (l := left s) isspace).length_le
        rw [List.length_append, ← hcommand, hself] at hlen
        rw [hwords, List.tail_cons, List.eq_nil_of_length_eq_zero (by omega : rest.length = 0)]
        rfl
    rw [htail, or_iff_right hmem]
    refine ⟨fun hwords => ?_, words_of_space⟩
    rcases words_cases ((behind blank s).takeWhile (!isMark ·)) with ⟨hall, -⟩ | ⟨-, rest, -, -, hcons⟩
    · exact hall
    · rw [hwords] at hcons
      cases hcons

end

/-! ## What the cuts leave -/

namespace Shell

variable {k : Kernel} {t t' : Shell} {line : List UInt8} {p : Nat} {c : UInt8}

/-- The string at `p` after a cut at the first `c` of the line. -/
theorem Holds.string_cut (H : t.Holds line) {m : List UInt8} {g : UInt8 → Bool}
    (hm : CString.string m p = (line.drop p).takeWhile g) (c : UInt8) :
    CString.string (zeroAt m (CString.strchr t.line.bytes 0 c)) p =
      (line.drop p).takeWhile fun d => g d && (d ≠ c || c ∈ line.take p) := by
  rw [H.strchr]
  split
  · rename_i hc
    rw [zeroAt, string_set, hm]
    split
    · rename_i hlt
      have htake : c ∈ line.take p := (List.mem_take_iff_idxOf_lt hc).mpr hlt
      simp [htake]
    · rename_i hle
      have htake : c ∉ line.take p := fun h => hle ((List.mem_take_iff_idxOf_lt hc).mp h)
      have hidx := idxOf_eq_length_takeWhile hc
      have hlen : line.idxOf c - p = ((line.drop p).takeWhile (· ≠ c)).length := by
        rw [takeWhile_drop (by omega), List.length_drop, hidx]
      rw [hlen, takeWhile_take_length]
      simp [htake]
  · rename_i hc
    rw [zeroAt, hm]
    refine takeWhile_congr fun d hd => ?_
    have hne : d ≠ c := fun h => hc (h ▸ List.mem_of_mem_drop hd)
    simp [hne]

/-- A mark that the line has only once is cut off from every string. -/
theorem Holds.string_cut_once (H : t.Holds line) {m : List UInt8} {g : UInt8 → Bool}
    (hm : CString.string m p = (line.drop p).takeWhile g) (hc : line.count c ≤ 1) :
    CString.string (zeroAt m (CString.strchr t.line.bytes 0 c)) p = (line.drop p).takeWhile
    fun d => g d && d ≠ c := by
  rw [H.string_cut hm c]
  refine takeWhile_congr fun d hd => ?_
  by_cases htake : c ∈ line.take p
  · have hcount := congrArg (List.count c) (List.take_append_drop p line)
    rw [List.count_append] at hcount
    have hpos := List.count_pos_iff.mpr htake
    have hne : d ≠ c := fun h => by
      have := List.count_pos_iff.mpr (h ▸ hd)
      omega
    simp [hne]
  · simp [htake]

/-- What a line is cut into at its first blank. -/
theorem Holds.string_located (H : t.Holds line) (hp : p ≤ line.length) :
    CString.string t.located.line.bytes p =
    (line.drop p).takeWhile fun d => d ≠ blank || blank ∈ line.take p := by
  have hm : CString.string t.line.bytes p = (line.drop p).takeWhile fun _ => true := by
    rw [H.string hp, List.takeWhile_eq_self_iff.mpr fun _ _ => rfl]
  have hcut := H.string_cut hm blank
  rw [located, LineBuf.locate_bytes, hcut]
  simp

theorem Holds.string_cutLine (H : t.Holds line) (hp : p ≤ line.length) (hredir : line.count 0x3e ≤ 1)
    (hpipe : line.count 0x7c ≤ 1) : CString.string t.cutLine.bytes p =
      (line.drop p).takeWhile fun d => (d ≠ blank || blank ∈ line.take p) && !isMark d := by
  have hlocated := H.string_located hp
  rw [located, LineBuf.locate_bytes] at hlocated
  rw [cutLine_bytes, H.string_cut_once (H.string_cut_once hlocated hredir) hpipe]
  congr 1
  funext d
  simp [isMark, Bool.and_assoc]

/-- The place of the first `c`. -/
theorem Holds.mark (H : t.Holds line) (h : CString.strchr t.line.bytes 0 c = some p) :
    p < line.length ∧ line.drop (p + 1) = behind c line ∧ ∀ d, d ≠ c →
    (d ∈ line.take (p + 1) ↔ d ∈ before c line) := by
  rw [H.strchr] at h
  obtain ⟨hc, hp⟩ := Option.ite_none_right_eq_some.mp h
  obtain rfl := Option.some.inj hp
  have hidx := idxOf_eq_length_takeWhile hc
  refine ⟨List.idxOf_lt_length_of_mem hc, ?_, fun d hd => ?_⟩
  · rw [← List.tail_drop, hidx, drop_length_takeWhile, behind]
  · have htake : line.take (line.idxOf c + 1) = before c line ++ [c] := by
      rw [List.take_add_one, List.getElem?_idxOf hc, hidx, take_length_takeWhile]
      rfl
    rw [htake, List.mem_append, or_iff_left fun h => hd (List.mem_singleton.mp h)]

/-- The text that the pointer to the argument points to. -/
theorem Holds.firstArg_eq (H : t.Holds line) (h : t.firstArg = some p) :
    p ≤ line.length ∧ blank ∈ line.take p ∧ line.drop p = (behind blank line).dropWhile isspace := by
  rw [firstArg, LineBuf.locate_firstArg] at h
  obtain ⟨i, hi, rfl⟩ := Option.map_eq_some_iff.mp h
  obtain ⟨hlt, hbehind, hbefore⟩ := H.mark hi
  have hzero : (t.line.bytes.set i 0)[line.length]? = some 0 := getElem?_zeroAt H.zero (some i)
  have hle : skip isspace (t.line.bytes.set i 0) (i + 1) ≤ line.length :=
      CString.skip_le (by decide) hzero hlt
  have hstring : ∀ q, i < q → q ≤ line.length → CString.string (t.line.bytes.set i 0) q = line.drop q := by
    intro q hiq hq
    rw [string_set, if_pos hiq, H.string hq]
  have hskip := string_skip (f := isspace) (by decide) (t.line.bytes.set i 0) (i + 1)
  have hge := le_skip isspace (t.line.bytes.set i 0) (i + 1)
  rw [hstring _ hge hle, hstring _ (Nat.lt_succ_self i) hlt, hbehind] at hskip
  refine ⟨hle, ?_, hskip⟩
  rw [H.strchr] at hi
  obtain ⟨hc, hi⟩ := Option.ite_none_right_eq_some.mp hi
  refine (List.mem_take_iff_idxOf_lt hc).mpr ?_
  rw [Option.some.inj hi]
  exact hge

/-! ## The parts of a line -/

/-- The text behind the command, as the command gets it. -/
def argumentText (t : Shell) : List UInt8 := (t.firstArg.map (CString.string t.cutLine.bytes)).getD []

/-- The command line of the new terminal, if the line has a `|`. -/
def subcommandText (t : Shell) : Option (List UInt8) :=
  t.pipeChar.map fun mark => ((t.located.line.cutAt t.redirChar).subcommand mark).1

theorem Holds.words_argumentText (H : t.Holds line) (hredir : line.count 0x3e ≤ 1)
    (hpipe : line.count 0x7c ≤ 1) :
    words t.argumentText = words ((behind blank line).takeWhile (!isMark ·)) := by
  rw [argumentText]
  cases hq : t.firstArg with
  | none =>
    have hblank : blank ∉ line := by
      rw [← H.string_zero]
      exact not_not.mp fun h => (firstArg_ne_none t).mpr (not_not.mp h) hq
    have hnil : line.dropWhile (· ≠ blank) = [] :=
      List.dropWhile_eq_nil_iff.mpr fun c hc => decide_eq_true fun h => hblank (h ▸ hc)
    rw [behind, hnil]
    rfl
  | some q =>
    obtain ⟨hle, hmem, hdrop⟩ := H.firstArg_eq hq
    have htext : CString.string t.cutLine.bytes q =
        ((behind blank line).takeWhile (!isMark ·)).dropWhile isspace := by
      rw [H.string_cutLine hle hredir hpipe, hdrop, ← takeWhile_dropWhile_of_imp]
      · simp [hmem]
      · intro c hc
        rw [isMark_of_isspace hc]
        rfl
    rw [Option.map_some, Option.getD_some, htext, words_dropWhile]

theorem Holds.redirPath_eq (H : t.Holds line) : t.redirPath = if 0x3e ∈ line then
    some (((behind 0x3e line).takeWhile
    fun d => d ≠ blank || blank ∈ before 0x3e line).dropWhile isspace) else none := by
  rw [redirPath, redirChar, LineBuf.locate_redirChar]
  cases hmark : CString.strchr t.line.bytes 0 0x3e with
  | none =>
    rw [strchr_eq_none, H.string_zero] at hmark
    rw [if_neg hmark, Option.map_none]
  | some mark =>
    obtain ⟨hlt, hbehind, hbefore⟩ := H.mark hmark
    rw [H.strchr] at hmark
    rw [if_pos (Option.ite_none_right_eq_some.mp hmark).1, Option.map_some, LineBuf.redirDest,
      LineBuf.cut_text,
      H.string_located hlt, hbehind]
    simp only [hbefore blank (by decide)]

theorem Holds.subcommandText_eq (H : t.Holds line) (hredir : line.count 0x3e ≤ 1) :
    t.subcommandText = if 0x7c ∈ line then some (((before 0x3e (behind 0x7c line)).takeWhile fun d =>
      d ≠ blank || blank ∈ before 0x7c line).dropWhile isspace) else none := by
  rw [subcommandText, pipeChar, LineBuf.locate_pipeChar]
  cases hmark : CString.strchr t.line.bytes 0 0x7c with
  | none =>
    rw [strchr_eq_none, H.string_zero] at hmark
    rw [if_neg hmark, Option.map_none]
  | some mark =>
    obtain ⟨hlt, hbehind, hbefore⟩ := H.mark hmark
    have hlocated := H.string_cut_once (H.string_located hlt) hredir
    rw [H.strchr] at hmark
    rw [if_pos (Option.ite_none_right_eq_some.mp hmark).1, Option.map_some, LineBuf.subcommand,
      LineBuf.cut_text,
      LineBuf.cutAt_bytes, redirChar, LineBuf.locate_redirChar, hlocated, hbehind,
      show before 0x3e (behind 0x7c line) =
      (behind 0x7c line).takeWhile (· ≠ 0x3e) from rfl, List.takeWhile_takeWhile]
    simp [hbefore blank (by decide)]

/-- The command and its arguments are the words in front of the first mark, the target is the first word
behind `>` and in front of `|`, and the other terminal gets the text behind `|` and in front of `>`. -/
structure SplitsAtMarks (t : Shell) (line : List UInt8) : Prop where
  command : CString.string t.cutLine.bytes 0 = (words (left line)).headD []
  args : words t.argumentText = (words (left line)).tail
  target : ∀ dest ∈ t.redirPath, dest = (words (before 0x7c (behind 0x3e line))).headD []
  subcommand : ∀ s ∈ t.subcommandText, s = (before 0x3e (behind 0x7c line)).dropWhile isspace

/-- The first blank of the line is where the cuts need it. -/
structure WellSpaced (line : List UInt8) : Prop where
  /-- No other white space is in front of the first blank, and nothing but white space stands between a
  blank at the beginning and the first mark. -/
  command : (∀ c ∈ before blank (left line), isspace c = false) ∧
    (before blank (left line) = [] → ∀ c ∈ left line, isspace c = true)
  /-- The first blank is in front of the marks, or only white space follows it up to the next mark. -/
  args : blank ∈ left line ∨ ∀ c ∈ (behind blank line).takeWhile (!isMark ·), isspace c = true
  /-- Behind `>` one word without a `|` follows up to the end, which is that of the line if a blank is in
  front of `>` and the next blank otherwise; or no word follows in front of a `|`. -/
  target : 0x3e ∈ line →
    (∀ c ∈ ((behind 0x3e line).takeWhile fun d => d ≠ blank || blank ∈ before 0x3e line).dropWhile isspace,
      isspace c = false ∧ c ≠ 0x7c) ∧
    (((behind 0x3e line).takeWhile fun d => d ≠ blank || blank ∈ before 0x3e line).dropWhile isspace = [] →
      ∀ c ∈ before 0x7c (behind 0x3e line), isspace c = true)
  /-- A blank is in front of `|`, or the text for the other terminal has none, or nothing but white space. -/
  subcommand : 0x7c ∈ line → blank ∈ before 0x7c line ∨ blank ∉ before 0x3e (behind 0x7c line) ∨
    ∀ c ∈ before 0x3e (behind 0x7c line), isspace c = true

/-- A line is split at its marks if and only if it is well spaced. -/
theorem splitsAtMarks_iff (H : t.Holds line) (hredir : line.count 0x3e ≤ 1) (hpipe : line.count 0x7c ≤ 1) :
    t.SplitsAtMarks line ↔ WellSpaced line := by
  have hcommand : CString.string t.cutLine.bytes 0 = before blank (left line) := by
    rw [H.string_cutLine (Nat.zero_le _) hredir hpipe, before, left, List.takeWhile_takeWhile]
    simp
  have hargs := args_iff (s := line)
  rw [← H.words_argumentText hredir hpipe] at hargs
  have htarget := target_iff (g := fun d => d ≠ blank || blank ∈ before 0x3e line)
    (fun c hc => isspace_of_eq_blank (Bool.or_eq_false_iff.mp hc).1) (show isspace 0x7c = false by decide)
    (behind 0x3e line)
  have hsub : ((before 0x3e (behind 0x7c line)).takeWhile
      fun d => d ≠ blank || blank ∈ before 0x7c line).dropWhile
      isspace = (before 0x3e (behind 0x7c line)).dropWhile isspace ↔ blank ∈ before 0x7c line ∨
        blank ∉ before 0x3e (behind 0x7c line) ∨ ∀ c ∈ before 0x3e (behind 0x7c line), isspace c = true := by
    by_cases hblank : blank ∈ before 0x7c line
    · refine iff_of_true ?_ (.inl hblank)
      rw [List.takeWhile_eq_self_iff.mpr fun d _ => by simp [hblank]]
    · have hcut : ((before 0x3e (behind 0x7c line)).takeWhile
        fun d => d ≠ blank || blank ∈ before 0x7c line) =
          before blank (before 0x3e (behind 0x7c line)) := takeWhile_congr fun d _ => by simp [hblank]
      rw [or_iff_right hblank, ← dropWhile_before_blank_iff, hcut]
  constructor
  · intro h
    have hfirst := hcommand.symm.trans (h.command.trans (headD_words _))
    refine ⟨(before_blank_iff _).mp hfirst, (hargs hfirst).mp h.args, fun hmem => ?_, fun hmem => ?_⟩
    · refine htarget.mp ((h.target _ ?_).trans (headD_words _))
      rw [H.redirPath_eq, if_pos hmem]
      rfl
    · refine hsub.mp (h.subcommand _ ?_)
      rw [H.subcommandText_eq hredir, if_pos hmem]
      rfl
  · intro h
    have hfirst := (before_blank_iff _).mpr h.command
    refine ⟨hcommand.trans (hfirst.trans (headD_words _).symm), (hargs hfirst).mpr h.args,
      fun dest hdest => ?_,
      fun s hs => ?_⟩
    · rw [H.redirPath_eq] at hdest
      obtain ⟨hmem, hdest⟩ := Option.ite_none_right_eq_some.mp hdest
      rw [← Option.some.inj hdest, headD_words]
      exact htarget.mpr (h.target hmem)
    · rw [H.subcommandText_eq hredir] at hs
      obtain ⟨hmem, hs⟩ := Option.ite_none_right_eq_some.mp hs
      rw [← Option.some.inj hs]
      exact hsub.mpr (h.subcommand hmem)

/-- `ExecuteLine` runs the command on the line behind the cuts, after it started the other terminal. -/
theorem executeLine_parts (h : t.executeLine k = some t') (hok : ¬t.RedirectFails) :
    ∃ (s : Shell) (exitCode : Int) (s' : Shell),
    s.runCommand k t.firstArg = some (exitCode, s') ∧ s.line = t.cutLine ∧
      (s.argument t.firstArg).1 = t.argumentText ∧
      ∀ commandLine ∈ t.subcommandText, ∃ es files, s.effects = es ++ [.newTerminal commandLine files] := by
  rcases executeLine_cases h with hredirect | ⟨t₁, exitCode, t₂, hredirect, hrun, -⟩
  · exact absurd ((redirect_cases hredirect).2.mp rfl) hok
  · have hline : (t₁.startPipe k t.pipeChar).2.line = t.cutLine := by
      rw [startPipe_line, redirect_line hredirect, cutLine]
    refine ⟨_, exitCode, t₂, hrun, hline, ?_, fun commandLine hmem => ?_⟩
    · rw [argumentText, ← hline]
      cases t.firstArg <;> rfl
    · obtain ⟨mark, hmark, rfl⟩ := Option.map_eq_some_iff.mp hmem
      rw [hmark, ← redirect_line hredirect]
      exact ⟨_, _, rfl⟩

end Shell

namespace Terminal

variable {t : Terminal} {line : List UInt8}

/-- At Enter, a line with at most one `|` and one `>` is split into the words and texts that stand between
the marks, if and only if it is well spaced. -/
theorem enter_splits_iff (htyped : t.shell.typedLine = line) (hzero : 0 ∉ line) (hredir : line.count 0x3e ≤ 1)
    (hpipe : line.count 0x7c ≤ 1) : t.shell.terminated.SplitsAtMarks line ↔ Shell.WellSpaced line :=
  Shell.splitsAtMarks_iff (Shell.holds_terminated htyped hzero) hredir hpipe

theorem enter_splits_iff_pipe : (typed (text "ls a | cat b > f")).shell.terminated.SplitsAtMarks
    (text "ls a | cat b > f") ↔ Shell.WellSpaced (text "ls a | cat b > f") :=
  enter_splits_iff (by decide +kernel) (by decide) (by decide) (by decide)

/-- Without a blank in front of the mark, the other terminal does not get the argument of its command. -/
theorem not_enter_splits : ¬(typed (text "ls|cat b")).shell.terminated.SplitsAtMarks (text "ls|cat b") := by
  intro h
  have hsub : text "cat" ∈ (typed (text "ls|cat b")).shell.terminated.subcommandText := by decide +kernel
  exact absurd (h.subcommand _ hsub) (by decide)

end Terminal

end MikanOS.CommandLine
