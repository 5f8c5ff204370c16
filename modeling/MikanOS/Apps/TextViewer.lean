import MikanOS.Library.CString
import MikanOS.Terminal.Utf8

/-! # The text viewer

`FindLines` and `CopyUTF8String` of `tview.cpp`: the lines of a mapped file and the copies of them that are shown.
`mem` is the memory of the application but for the buffer that a line is copied to; `CountUTF8Size` is written as
in `font.cpp`. A line that the file ends with is copied rightly unless a tab lies behind the file. -/

namespace MikanOS.TextViewer

open Bytes CString

/-! ## `FindLines` -/

def newline : UInt8 := 0x0a

def tabByte : UInt8 := 0x09

/-- `next_lf`, where `left` bytes are left before `end`. -/
def nextLf (mem : Nat → UInt8) : (left s : Nat) → Nat
  | 0, s => s
  | left + 1, s => if mem s ≠ newline then nextLf mem left (s + 1) else s

/-- The loop of `FindLines` and what it pushes behind it. The first number bounds the turns. -/
def linesFrom (mem : Nat → UInt8) (fileEnd : Nat) : (turns p : Nat) → List (Nat × Nat)
  | 0, _ => []
  | turns + 1, p =>
    let lf := nextLf mem (fileEnd - p) p
    if lf < fileEnd then (p, lf - p) :: linesFrom mem fileEnd turns (lf + 1)
    else if p < fileEnd then [(p, fileEnd - p)] else []

/-- `FindLines`: the beginnings and sizes of the lines. -/
def findLines (mem : Nat → UInt8) (p len : Nat) : List (Nat × Nat) := linesFrom mem (p + len) (len + 1) p

/-! ## `CopyUTF8String` -/

/-- A sum of the type `int`, which has no value if it overflows. -/
def int (x : Nat) : Option Nat := if x < 2 ^ 31 then some x else none

/-- The columns of what begins with a byte, at the column `x`. -/
def columns (tab x : Nat) (b : UInt8) : Nat := if b = tabByte then tab - x % tab else if b < 0x80 then 1 else 2

/-- The loop of `CopyUTF8String`, with `src` as an address and `d` as an index in `dst`. The first number bounds
the turns; a store outside of `dst` and an overflow give no result. -/
def copyLoop (mem : Nat → UInt8) (srcEnd dstEnd : Nat) (w : Int) (tab : Nat) :
    (turns src d x : Nat) → (dst : List UInt8) → Option (Nat × List UInt8)
  | 0, _, _, _, _ => none
  | turns + 1, src, d, x, dst =>
    if mem src = 0 then some (d, dst)
    else if mem src = tabByte then
      let spaces := columns tab x (mem src)
      if dstEnd ≤ d + spaces then some (d, dst)
      else do
        let dst ← storeBytes dst d (List.replicate spaces 0x20)
        let x ← int (x + spaces)
        copyLoop mem srcEnd dstEnd w tab turns (src + 1) (d + spaces) x dst
    else do
      let x ← int (x + columns tab x (mem src))
      if w ≤ x then some (d, dst)
      else
        let c := CountUTF8Size (mem src)
        if srcEnd < src + c ∨ dstEnd ≤ d + c then some (d, dst)
        else do
          let dst ← storeBytes dst d (slice mem src c)
          copyLoop mem srcEnd dstEnd w tab turns (src + c) (d + c) x dst

/-- `CopyUTF8String`: the index of the final NUL in `dst`, and `dst`. Each turn of the loop fills `dst` or moves the
column, so that the turns suffice. -/
def copyUTF8String (mem : Nat → UInt8) (dst : List UInt8) (dstSize src srcSize : Nat) (w : Int) (tab : Nat) :
    Option (Nat × List UInt8) := do
  let (d, dst) ← copyLoop mem (src + srcSize) dstSize w tab (dstSize + w.toNat + 1) src 0 0 dst
  let dst ← storeBytes dst d [0]
  some (d, dst)

/-! ## Lines -/

section

variable {mem mem' : Nat → UInt8} {content len fileEnd left turns p s src n : Nat}

theorem nextLf_spec (mem : Nat → UInt8) (left s : Nat) : s ≤ nextLf mem left s ∧ nextLf mem left s ≤ s + left ∧
    (∀ i, s ≤ i → i < nextLf mem left s → mem i ≠ newline) ∧
    (nextLf mem left s < s + left → mem (nextLf mem left s) = newline) := by
  induction left generalizing s with
  | zero => exact ⟨le_rfl, le_rfl, fun i hi hlt => absurd hlt (Nat.not_lt.mpr hi), fun h => absurd h (lt_irrefl _)⟩
  | succ left ih =>
    rw [nextLf]
    split
    · rename_i hne
      obtain ⟨hge, hle, hnone, hlf⟩ := ih (s + 1)
      refine ⟨by omega, by omega, fun i hi hlt => ?_, fun hlt => hlf (by omega)⟩
      rcases Nat.eq_or_lt_of_le hi with rfl | hi
      · exact hne
      · exact hnone i hi hlt
    · rename_i hlf
      exact ⟨le_rfl, by omega, fun i hi hlt => absurd hlt (Nat.not_lt.mpr hi), fun _ => not_not.mp hlf⟩

/-- A line lies in the file and has no newline; it ends with one, or with the file, and then it is not empty. -/
structure IsLine (mem : Nat → UInt8) (fileEnd src n : Nat) : Prop where
  le : src + n ≤ fileEnd
  not_newline : ∀ i < n, mem (src + i) ≠ newline
  ended : src + n < fileEnd → mem (src + n) = newline
  ne_zero : src + n = fileEnd → n ≠ 0

theorem isLine_of_mem_linesFrom (hp : p ≤ fileEnd) (h : (src, n) ∈ linesFrom mem fileEnd turns p) :
    p ≤ src ∧ IsLine mem fileEnd src n := by
  induction turns generalizing p with
  | zero => cases h
  | succ turns ih =>
    obtain ⟨hge, hle, hnone, hlf⟩ := nextLf_spec mem (fileEnd - p) p
    rw [linesFrom] at h
    generalize nextLf mem (fileEnd - p) p = lf at *
    split at h
    · rename_i hlt
      rcases List.mem_cons.mp h with heq | h
      · obtain ⟨rfl, rfl⟩ := Prod.mk.inj heq
        refine ⟨le_rfl, by omega, fun i hi => hnone _ (by omega) (by omega), fun _ => ?_, fun hend => by omega⟩
        rw [Nat.add_sub_cancel' hge]
        exact hlf (by omega)
      · obtain ⟨hsrc, H⟩ := ih hlt h
        exact ⟨by omega, H⟩
    · rename_i hnot
      split at h
      · rename_i hlt
        obtain ⟨rfl, rfl⟩ := Prod.mk.inj (List.mem_singleton.mp h)
        exact ⟨le_rfl, by omega, fun i hi => hnone _ (by omega) (by omega), fun h => by omega, fun _ => by omega⟩
      · cases h

theorem isLine_of_mem (h : (src, n) ∈ findLines mem content len) : IsLine mem (content + len) src n :=
  (isLine_of_mem_linesFrom (Nat.le_add_right _ _) h).2

theorem nextLf_congr (h : ∀ i < s + left, mem' i = mem i) : nextLf mem' left s = nextLf mem left s := by
  induction left generalizing s with
  | zero => rfl
  | succ left ih =>
    rw [nextLf, nextLf, h s (by omega), ih fun i hi => h i (by omega)]

theorem linesFrom_congr (h : ∀ i < fileEnd, mem' i = mem i) (hp : p ≤ fileEnd) :
    linesFrom mem' fileEnd turns p = linesFrom mem fileEnd turns p := by
  induction turns generalizing p with
  | zero => rfl
  | succ turns ih =>
    have hlf : nextLf mem' (fileEnd - p) p = nextLf mem (fileEnd - p) p := nextLf_congr fun i hi => h i (by omega)
    rw [linesFrom, linesFrom, hlf]
    split
    · rename_i hlt
      rw [ih hlt]
    · rfl

end

/-! ## Texts -/

/-- The bytes of a text, of which each character begins with a byte that announces its length. -/
def IsCharacter (ch : List UInt8) : Prop := ch.headD 0 ≠ 0 ∧ CountUTF8Size (ch.headD 0) = ch.length

instance : DecidablePred IsCharacter := fun _ => inferInstanceAs (Decidable (_ ∧ _))

/-- A character as it is shown at the column `x`: a tab is filled up with blanks. -/
def written (tab x : Nat) (ch : List UInt8) : List UInt8 :=
  if ch.headD 0 = tabByte then List.replicate (columns tab x (ch.headD 0)) 0x20 else ch

/-- A text as it is shown from the column `x` on. -/
def layout (tab : Nat) : (x : Nat) → List (List UInt8) → List UInt8
  | _, [] => []
  | x, ch :: text => written tab x ch ++ layout tab (x + columns tab x (ch.headD 0)) text

/-- The column behind a text. -/
def column (tab : Nat) : (x : Nat) → List (List UInt8) → Nat
  | x, [] => x
  | x, ch :: text => column tab (x + columns tab x (ch.headD 0)) text

/-- At the column `x` and behind `d` bytes there is room for a character: its bytes leave a place for the final
NUL, and the column behind it is an `int` and, but for a tab, less than the width. -/
structure Room (dstEnd : Nat) (w : Int) (tab x d : Nat) (ch : List UInt8) : Prop where
  bytes : d + (written tab x ch).length < dstEnd
  column_lt : x + columns tab x (ch.headD 0) < 2 ^ 31
  width : ch.headD 0 ≠ tabByte → ((x + columns tab x (ch.headD 0) : Nat) : Int) < w

/-- There is room for each character of a text. -/
def Fits (dstEnd : Nat) (w : Int) (tab : Nat) : (x d : Nat) → List (List UInt8) → Prop
  | _, _, [] => True
  | x, d, ch :: text => IsCharacter ch ∧ Room dstEnd w tab x d ch ∧
    Fits dstEnd w tab (x + columns tab x (ch.headD 0)) (d + (written tab x ch).length) text

section

variable {mem : Nat → UInt8} {srcEnd dstEnd tab turns src d x : Nat} {w : Int} {dst : List UInt8}

theorem IsCharacter.ne_nil {ch : List UInt8} (h : IsCharacter ch) : ch ≠ [] := by
  rintro rfl
  exact h.1 rfl

theorem storeBytes_front {front back bytes : List UInt8} (h : bytes.length ≤ back.length) :
    storeBytes (front ++ back) front.length bytes = some (front ++ bytes ++ back.drop bytes.length) := by
  have hlength : (back.take bytes.length).length = bytes.length := by
    rw [List.length_take, Nat.min_eq_left h]
  conv_lhs => rw [← List.take_append_drop bytes.length back]
  rw [storeBytes_append rfl hlength, List.append_assoc]

/-- One turn of the loop copies a character that there is room for. -/
theorem copyLoop_character {ch front back : List UInt8} (hch : IsCharacter ch)
    (hroom : Room dstEnd w tab x front.length ch) (hmem : slice mem src ch.length = ch)
    (hend : ch.headD 0 ≠ tabByte → src + ch.length ≤ srcEnd) (hdst : dstEnd ≤ front.length + back.length)
    (turns : Nat) :
    copyLoop mem srcEnd dstEnd w tab (turns + 1) src front.length x (front ++ back) =
      copyLoop mem srcEnd dstEnd w tab turns (src + ch.length) (front ++ written tab x ch).length
        (x + columns tab x (ch.headD 0))
        (front ++ written tab x ch ++ back.drop (written tab x ch).length) := by
  obtain ⟨hbytes, hcolumn, hwidth⟩ := hroom
  have hb : mem src = ch.headD 0 := by
    obtain ⟨b, bytes, rfl⟩ := List.exists_cons_of_ne_nil hch.ne_nil
    rw [← hmem, slice, List.length_cons, List.range_succ_eq_map]
    rfl
  have hstore := @storeBytes_front front back (written tab x ch) (by omega)
  have hint : int (x + columns tab x (ch.headD 0)) = some (x + columns tab x (ch.headD 0)) := if_pos hcolumn
  rw [copyLoop, hb, if_neg hch.1, List.length_append]
  by_cases htab : ch.headD 0 = tabByte
  · have hone : ch.length = 1 := by
      rw [← hch.2, htab]
      rfl
    have hwritten : written tab x ch = List.replicate (columns tab x (ch.headD 0)) 0x20 := if_pos htab
    rw [hwritten, List.length_replicate] at hbytes hstore ⊢
    rw [if_pos htab]
    simp only [if_neg (Nat.not_le.mpr hbytes), hstore, hint, Option.bind_eq_bind, Option.bind_some, hone]
  · have hwritten : written tab x ch = ch := if_neg htab
    rw [hwritten] at hbytes hstore ⊢
    have hend := hend htab
    have hnot : ¬(srcEnd < src + ch.length ∨ dstEnd ≤ front.length + ch.length) := by omega
    rw [if_neg htab]
    simp only [hint, Option.bind_eq_bind, Option.bind_some, if_neg (Int.not_le.mpr (hwidth htab)), hch.2, hmem,
      if_neg hnot, hstore]

/-- The loop copies a text that fits. -/
theorem copyLoop_text {text : List (List UInt8)} {front back : List UInt8}
    (H : Fits dstEnd w tab x front.length text) (hmem : slice mem src text.flatten.length = text.flatten)
    (hend : src + text.flatten.length ≤ srcEnd) (hdst : dstEnd ≤ front.length + back.length) (turns : Nat) :
    copyLoop mem srcEnd dstEnd w tab (turns + text.length) src front.length x (front ++ back) =
      copyLoop mem srcEnd dstEnd w tab turns (src + text.flatten.length)
        (front ++ layout tab x text).length (column tab x text)
        (front ++ layout tab x text ++ back.drop (layout tab x text).length) := by
  induction text generalizing src x front back with
  | nil => simp [layout, column]
  | cons ch text ih =>
    obtain ⟨hch, hroom, H⟩ := H
    rw [List.flatten_cons, List.length_append] at hend hmem
    rw [slice_add] at hmem
    obtain ⟨hmem₁, hmem₂⟩ := List.append_inj hmem (length_slice ..)
    have hdst' : dstEnd ≤ (front ++ written tab x ch).length + (back.drop (written tab x ch).length).length := by
      rw [List.length_append, List.length_drop]
      omega
    rw [List.length_cons, ← Nat.add_assoc, copyLoop_character hch hroom hmem₁ (fun _ => by omega) hdst,
      ih (by rw [List.length_append]; exact H) hmem₂ (by omega) hdst']
    simp only [layout, column, List.flatten_cons, List.length_append, List.append_assoc, List.drop_drop, Nat.add_assoc]

theorem one_le_columns (htab : 1 ≤ tab) (x : Nat) (b : UInt8) : 1 ≤ columns tab x b := by
  have := Nat.mod_lt x htab
  rw [columns]
  split
  · omega
  · split <;> omega

theorem columns_of_stray {b : UInt8} (h : CountUTF8Size b = 0) (x : Nat) : columns tab x b = 2 := by
  have hnot : ¬b < 0x80 := fun hlt => by
    rw [CountUTF8Size, if_pos hlt] at h
    cases h
  have htab : b ≠ tabByte := fun htab => hnot (htab ▸ by decide)
  rw [columns, if_neg htab, if_neg hnot]

theorem Fits.length_lt {text : List (List UInt8)} (H : Fits dstEnd w tab x d text) (hd : d < dstEnd) :
    d + (layout tab x text).length < dstEnd := by
  induction text generalizing x d with
  | nil => exact hd
  | cons ch text ih =>
    have := ih H.2.2 H.2.1.bytes
    rw [layout, List.length_append]
    omega

/-- Each character of a text that fits takes a byte at least. -/
theorem Fits.length_le {text : List (List UInt8)} (H : Fits dstEnd w tab x d text) (htab : 1 ≤ tab) :
    text.length ≤ (layout tab x text).length := by
  induction text generalizing x d with
  | nil => exact le_rfl
  | cons ch text ih =>
    have hpos : 1 ≤ (written tab x ch).length := by
      rw [written]
      split
      · rw [List.length_replicate]
        exact one_le_columns htab _ _
      · exact List.length_pos_iff.mpr H.1.ne_nil
    have := ih H.2.2
    rw [layout, List.length_append, List.length_cons]
    omega

/-! ## Where the loop stops -/

/-- At the byte `b` the loop leaves the range of `int`: with the columns of `b`, or, if no character begins with
it, with one of the steps of two columns that it makes there until the width is reached. -/
def Overflows (dstEnd : Nat) (w : Int) (tab x d : Nat) (b : UInt8) : Prop :=
  b ≠ 0 ∧ (b = tabByte → d + columns tab x b < dstEnd) ∧
    (2 ^ 31 ≤ x + columns tab x b ∨
      CountUTF8Size b = 0 ∧ ∃ j : Nat, ((x + 2 * j : Nat) : Int) < w ∧ 2 ^ 31 ≤ x + 2 * j + 2)

/-- The loop does not copy what begins with the byte `b`, where `left` bytes of the line are left. -/
def Blocked (dstEnd : Nat) (w : Int) (tab left x d : Nat) (b : UInt8) : Prop :=
  if b = tabByte then dstEnd ≤ d + columns tab x b
  else b ≠ 0 → CountUTF8Size b ≠ 0 → ((x + columns tab x b : Nat) : Int) < w →
    left < CountUTF8Size b ∨ dstEnd ≤ d + CountUTF8Size b

theorem storeBytes_nil (h : d ≤ dst.length) : storeBytes dst d [] = some dst := by
  rw [storeBytes, if_pos (by simpa using h), List.nil_append, List.length_nil, Nat.add_zero, List.take_append_drop]

/-- A step of two columns where no character begins. -/
theorem copyLoop_stray (hc : CountUTF8Size (mem src) = 0) (hx : x + 2 < 2 ^ 31) (hw : ((x + 2 : Nat) : Int) < w)
    (hsrc : src ≤ srcEnd) (hd : d < dstEnd) (hdst : d ≤ dst.length) (turns : Nat) :
    copyLoop mem srcEnd dstEnd w tab (turns + 1) src d x dst =
      copyLoop mem srcEnd dstEnd w tab turns src d (x + 2) dst := by
  have hcolumns : columns tab x (mem src) = 2 := columns_of_stray hc x
  have hnul : mem src ≠ 0 := fun h => by
    rw [h] at hc
    cases hc
  have htab : mem src ≠ tabByte := fun h => by
    rw [h] at hc
    cases hc
  have hint : int (x + 2) = some (x + 2) := if_pos hx
  have hnot : ¬(srcEnd < src ∨ dstEnd ≤ d) := by omega
  rw [copyLoop, if_neg hnul, if_neg htab]
  simp only [hcolumns, hint, Option.bind_eq_bind, Option.bind_some, if_neg (Int.not_le.mpr hw), hc, Nat.add_zero,
    if_neg hnot, slice_zero, storeBytes_nil hdst]

theorem copyLoop_nul (h : mem src = 0) (turns : Nat) :
    copyLoop mem srcEnd dstEnd w tab (turns + 1) src d x dst = some (d, dst) := if_pos h

/-- The loop stops where it copies nothing, at a byte that begins no character after some turns. -/
theorem copyLoop_stop (hover : ¬Overflows dstEnd w tab x d (mem src))
    (hblocked : Blocked dstEnd w tab (srcEnd - src) x d (mem src)) (hsrc : src ≤ srcEnd) (hd : d < dstEnd)
    (hdst : d ≤ dst.length) (hturns : w.toNat < turns + x) (hpos : 0 < turns) :
    copyLoop mem srcEnd dstEnd w tab turns src d x dst = some (d, dst) := by
  induction turns generalizing x with
  | zero => exact absurd hpos (Nat.lt_irrefl 0)
  | succ turns ih =>
    by_cases hnul : mem src = 0
    · exact copyLoop_nul hnul turns
    by_cases htab : mem src = tabByte
    · rw [Blocked, if_pos htab] at hblocked
      rw [copyLoop, if_neg hnul, if_pos htab]
      simp only [if_pos hblocked]
    have hlt : x + columns tab x (mem src) < 2 ^ 31 :=
      Nat.lt_of_not_le fun h => hover ⟨hnul, fun h' => absurd h' htab, .inl h⟩
    by_cases hw : ((x + columns tab x (mem src) : Nat) : Int) < w
    · by_cases hc : CountUTF8Size (mem src) = 0
      · have hcolumns : ∀ x, columns tab x (mem src) = 2 := columns_of_stray hc
        rw [hcolumns] at hlt hw
        have hblocked' : Blocked dstEnd w tab (srcEnd - src) (x + 2) d (mem src) := by
          rw [Blocked, if_neg htab]
          exact fun _ hne => absurd hc hne
        have hover' : ¬Overflows dstEnd w tab (x + 2) d (mem src) := by
          rintro ⟨-, -, hle | ⟨-, j, hj, hle⟩⟩
          · rw [hcolumns] at hle
            exact hover ⟨hnul, fun h' => absurd h' htab, .inr ⟨hc, 1, hw, hle⟩⟩
          · exact hover ⟨hnul, fun h' => absurd h' htab, .inr ⟨hc, j + 1, by omega, by omega⟩⟩
        rw [copyLoop_stray hc hlt hw hsrc hd hdst]
        exact ih hover' hblocked' (by omega) (by omega)
      · rw [Blocked, if_neg htab] at hblocked
        have hstop : srcEnd < src + CountUTF8Size (mem src) ∨ dstEnd ≤ d + CountUTF8Size (mem src) :=
          (hblocked hnul hc hw).imp_left fun h => by omega
        have hint : int (x + columns tab x (mem src)) = some (x + columns tab x (mem src)) := if_pos hlt
        rw [copyLoop, if_neg hnul, if_neg htab]
        simp only [hint, Option.bind_eq_bind, Option.bind_some, if_neg (Int.not_le.mpr hw), if_pos hstop]
    · have hint : int (x + columns tab x (mem src)) = some (x + columns tab x (mem src)) := if_pos hlt
      rw [copyLoop, if_neg hnul, if_neg htab]
      simp only [hint, Option.bind_eq_bind, Option.bind_some, if_pos (Int.not_lt.mp hw)]

/-- An overflow gives no result. -/
theorem copyLoop_overflow (h : Overflows dstEnd w tab x d (mem src)) (hsrc : src ≤ srcEnd) (hd : d < dstEnd)
    (hdst : d ≤ dst.length) (turns : Nat) : copyLoop mem srcEnd dstEnd w tab turns src d x dst = none := by
  induction turns generalizing x with
  | zero => rfl
  | succ turns ih =>
    obtain ⟨hnul, hroom, hcases⟩ := h
    by_cases hle : 2 ^ 31 ≤ x + columns tab x (mem src)
    · have hint : int (x + columns tab x (mem src)) = none := if_neg (Nat.not_lt.mpr hle)
      rw [copyLoop, if_neg hnul]
      by_cases htab : mem src = tabByte
      · rw [if_pos htab]
        simp only [if_neg (Nat.not_le.mpr (hroom htab)), hint, Option.bind_eq_bind, Option.bind_none,
          Option.bind_fun_none]
      · rw [if_neg htab]
        simp only [hint, Option.bind_eq_bind, Option.bind_none]
    · obtain ⟨hc, j, hj, hle'⟩ := hcases.resolve_left hle
      have hcolumns : ∀ x, columns tab x (mem src) = 2 := columns_of_stray hc
      rw [hcolumns] at hle
      -- the first step is not the one that overflows
      obtain ⟨j, rfl⟩ := Nat.exists_eq_succ_of_ne_zero (show j ≠ 0 by omega)
      rw [copyLoop_stray hc (by omega) (by omega) hsrc hd hdst]
      refine ih ⟨hnul, fun htab => ?_, .inr ⟨hc, j, by omega, by omega⟩⟩
      rw [htab] at hc
      cases hc

/-- A line begins with a text that fits and behind which nothing is copied. -/
theorem exists_maximal (line : List UInt8) (x d : Nat) : ∃ text tail, line = text.flatten ++ tail ∧
    Fits dstEnd w tab x d text ∧ ∀ b bytes, tail = b :: bytes →
      ¬Overflows dstEnd w tab (column tab x text) (d + (layout tab x text).length) b →
      Blocked dstEnd w tab tail.length (column tab x text) (d + (layout tab x text).length) b := by
  induction hn : line.length using Nat.strongRecOn generalizing line x d with
  | ind n ih =>
    by_cases hcopy : ∃ ch rest, line = ch ++ rest ∧ IsCharacter ch ∧ Room dstEnd w tab x d ch
    · obtain ⟨ch, rest, rfl, hch, hroom⟩ := hcopy
      have hpos := List.length_pos_iff.mpr hch.ne_nil
      rw [List.length_append] at hn
      obtain ⟨text, tail, rfl, H, hstop⟩ := ih rest.length (by omega) rest (x + columns tab x (ch.headD 0))
        (d + (written tab x ch).length) rfl
      refine ⟨ch :: text, tail, by rw [List.flatten_cons, List.append_assoc], ⟨hch, hroom, H⟩, ?_⟩
      rw [column, layout, List.length_append, ← Nat.add_assoc]
      exact hstop
    · refine ⟨[], line, rfl, trivial, fun b bytes hline hover => ?_⟩
      rw [column, layout, List.length_nil, Nat.add_zero] at hover ⊢
      subst hline
      rw [Blocked]
      split
      · rename_i htab
        subst htab
        have hwritten : (written tab x [tabByte]).length = columns tab x tabByte := List.length_replicate
        refine Nat.le_of_not_lt fun hlt => hcopy ⟨[tabByte], bytes, rfl, by decide, ?_, ?_, fun h => absurd rfl h⟩
        · rwa [hwritten]
        · exact Nat.lt_of_not_le fun hle => hover ⟨by decide, fun _ => hlt, .inl hle⟩
      · rename_i htab
        intro hnul hc hw
        by_contra hnot
        rw [not_or, Nat.not_lt, Nat.not_le] at hnot
        have hlength : ((b :: bytes).take (CountUTF8Size b)).length = CountUTF8Size b := by
          rw [List.length_take, Nat.min_eq_left hnot.1]
        have hhead : ((b :: bytes).take (CountUTF8Size b)).headD 0 = b := by
          obtain ⟨size, hsize⟩ := Nat.exists_eq_succ_of_ne_zero hc
          rw [hsize]
          rfl
        refine hcopy ⟨(b :: bytes).take (CountUTF8Size b), (b :: bytes).drop (CountUTF8Size b),
          (List.take_append_drop ..).symm, ⟨?_, ?_⟩, ?_, ?_, ?_⟩
        · rwa [hhead]
        · rw [hhead, hlength]
        · rw [written, hhead, if_neg htab, hlength]
          exact hnot.2
        · rw [hhead]
          exact Nat.lt_of_not_le fun hle => hover ⟨hnul, fun h => absurd h htab, .inl hle⟩
        · rw [hhead]
          exact fun _ => hw

end

/-! ## Clipping -/

/-- What a line may be shown as: a number of its characters from the front, none of them split, with a place left
for the final NUL. -/
structure Clipping (line : List UInt8) (dstSize tab : Nat) (out : List UInt8) : Prop where
  length_lt : out.length < dstSize
  whole : ∃ text tail, line = text.flatten ++ tail ∧ (∀ ch ∈ text, IsCharacter ch) ∧ out = layout tab 0 text
  utf8 : ∀ chars : List Char, line = CommandLine.utf8Encode chars →
    ∃ k, out = layout tab 0 ((chars.take k).map String.utf8EncodeChar)

/-- `mem'` is a memory of the application with the same line in the same place of the file. -/
structure SameLine (mem mem' : Nat → UInt8) (content len src n : Nat) : Prop where
  bytes : slice mem' src n = slice mem src n
  mem_findLines : (src, n) ∈ findLines mem' content len

/-- `CopyUTF8String` returns, has stored a clipping of the line and the final NUL at the front of `dst` and nothing
behind them, and does the same whatever follows the line. -/
def Clips (mem : Nat → UInt8) (content len : Nat) (dst : List UInt8) (src n : Nat) (w : Int) (tab : Nat) : Prop :=
  ∃ out, Clipping (slice mem src n) dst.length tab out ∧ ∀ mem', SameLine mem mem' content len src n →
    copyUTF8String mem' dst dst.length src n w tab = some (out.length, out ++ 0 :: dst.drop (out.length + 1))

/-- The lines that are clipped. With what is copied and what may lie behind it, the columns stay in the range of
`int`; and if the file ends with the line and all of the line is copied, then the blanks for a tab, which the loop
does not compare with `src_end`, do not fit behind it. -/
structure Safe (line : List UInt8) (ended : Prop) (dstEnd : Nat) (w : Int) (tab : Nat) : Prop where
  not_overflows : ∀ b, (ended → b = newline) → ∀ text c tail, line ++ [b] = text.flatten ++ c :: tail →
    Fits dstEnd w tab 0 0 text → ¬Overflows dstEnd w tab (column tab 0 text) (layout tab 0 text).length c
  tab_le : ¬ended → ∀ text, line = text.flatten → Fits dstEnd w tab 0 0 text →
    dstEnd ≤ (layout tab 0 text).length + columns tab (column tab 0 text) tabByte

section

variable {mem mem' : Nat → UInt8} {srcEnd dstEnd content len tab src n d x : Nat} {w : Int} {line dst out : List UInt8}
  {text : List (List UInt8)}

theorem Fits.isCharacter (H : Fits dstEnd w tab x d text) : ∀ ch ∈ text, IsCharacter ch := by
  induction text generalizing x d with
  | nil => exact fun _ h => absurd h List.not_mem_nil
  | cons ch text ih =>
    intro ch' hmem
    rcases List.mem_cons.mp hmem with rfl | hmem
    · exact H.1
    · exact ih H.2.2 ch' hmem

/-- The first byte of the encoding of a character announces its length. -/
theorem CountUTF8Size_utf8EncodeChar (c : Char) :
    CountUTF8Size ((String.utf8EncodeChar c).headD 0) = (String.utf8EncodeChar c).length := by
  have hmem : slice (fun i => (String.utf8EncodeChar c).getD i 0) 0 (String.utf8EncodeChar c).length =
      String.utf8EncodeChar c := by
    refine List.ext_getElem (length_slice ..) fun i hi hi' => ?_
    simp only [slice, List.getElem_map, List.getElem_range, Nat.zero_add, List.getD_eq_getElem _ _ hi']
  have hconvert := congrArg Prod.snd (CommandLine.ConvertUTF8To32_utf8EncodeChar _ hmem)
  rwa [CommandLine.ConvertUTF8To32_snd, ← List.headD_eq_getD] at hconvert

/-- The characters that are copied from the encoding of a text are the first ones of the text. -/
theorem exists_take {chars : List Char} {tail : List UInt8} (H : ∀ ch ∈ text, IsCharacter ch)
    (h : CommandLine.utf8Encode chars = text.flatten ++ tail) :
    ∃ k, text = (chars.take k).map String.utf8EncodeChar := by
  induction text generalizing chars with
  | nil => exact ⟨0, rfl⟩
  | cons ch text ih =>
    have hch := H ch List.mem_cons_self
    obtain ⟨b, bytes, rfl⟩ := List.exists_cons_of_ne_nil hch.ne_nil
    cases chars with
    | nil => cases h
    | cons c chars =>
      have hcons : CommandLine.utf8Encode (c :: chars) = String.utf8EncodeChar c ++ CommandLine.utf8Encode chars :=
        List.flatMap_cons
      rw [hcons, List.flatten_cons, List.append_assoc] at h
      have hlength : (String.utf8EncodeChar c).length = (b :: bytes).length := by
        have hsize := CountUTF8Size_utf8EncodeChar c
        obtain ⟨b', bytes', henc⟩ := List.exists_cons_of_ne_nil (@String.utf8EncodeChar_ne_nil c)
        rw [henc] at h hsize ⊢
        obtain rfl : b' = b := List.head_eq_of_cons_eq h
        rw [← hsize, ← hch.2]
        rfl
      obtain ⟨hfirst, hrest⟩ := List.append_inj h hlength
      obtain ⟨k, rfl⟩ := ih (fun ch' hmem => H ch' (List.mem_cons_of_mem _ hmem)) hrest
      exact ⟨k + 1, by rw [← hfirst]; rfl⟩

theorem Fits.clipping {tail : List UInt8} (H : Fits dst.length w tab 0 0 text) (hline : line = text.flatten ++ tail)
    (hdst : 1 ≤ dst.length) : Clipping line dst.length tab (layout tab 0 text) where
  length_lt := by
    have := H.length_lt hdst
    rwa [Nat.zero_add] at this
  whole := ⟨text, tail, hline, H.isCharacter, rfl⟩
  utf8 chars hchars := by
    obtain ⟨k, hk⟩ := exists_take H.isCharacter (hchars.symm.trans hline)
    exact ⟨k, by rw [← hk]⟩

/-- The loop from the start, over a text that fits. `turns` are left behind it. -/
theorem copyLoop_start (H : Fits dst.length w tab 0 0 text) (hmem : slice mem src text.flatten.length = text.flatten)
    (hend : src + text.flatten.length ≤ srcEnd) (turns : Nat) :
    copyLoop mem srcEnd dst.length w tab (turns + text.length) src 0 0 dst =
      copyLoop mem srcEnd dst.length w tab turns (src + text.flatten.length) (layout tab 0 text).length
        (column tab 0 text) (layout tab 0 text ++ dst.drop (layout tab 0 text).length) :=
  @copyLoop_text _ _ _ _ _ _ _ _ [] dst H hmem hend (by rw [List.length_nil, Nat.zero_add]) turns

/-- The result, where the loop stops behind a text. -/
theorem copyUTF8String_eq (hout : out.length < dst.length)
    (h : copyLoop mem (src + n) dst.length w tab (dst.length + w.toNat + 1) src 0 0 dst =
      some (out.length, out ++ dst.drop out.length)) :
    copyUTF8String mem dst dst.length src n w tab = some (out.length, out ++ 0 :: dst.drop (out.length + 1)) := by
  have hstore := @storeBytes_front out (dst.drop out.length) [0] (by
    rw [List.length_drop, List.length_singleton]
    omega)
  rw [copyUTF8String, h]
  simp only [Option.bind_eq_bind, Option.bind_some, hstore, List.drop_drop, List.length_singleton, List.append_assoc,
    List.singleton_append]

theorem SameLine.ended (H : SameLine mem mem' content len src n) (h : src + n < content + len) :
    mem' (src + n) = newline := (isLine_of_mem H.mem_findLines).ended h

/-- The bytes of the line and the one behind it. -/
theorem SameLine.slice_succ (H : SameLine mem mem' content len src n) :
    slice mem' src (n + 1) = slice mem src n ++ [mem' (src + n)] := by
  rw [slice_add, H.bytes]
  rfl

/-- The memory with the byte `b` behind the file, and zeros behind it. -/
def behind (mem : Nat → UInt8) (fileEnd : Nat) (b : UInt8) (i : Nat) : UInt8 :=
  if i < fileEnd then mem i else if i = fileEnd then b else 0

theorem sameLine_behind (h : (src, n) ∈ findLines mem content len) (b : UInt8) :
    SameLine mem (behind mem (content + len) b) content len src n where
  bytes := by
    have := (isLine_of_mem h).le
    exact slice_congr fun i hi => if_pos (by omega)
  mem_findLines := by
    have hcongr : findLines (behind mem (content + len) b) content len = findLines mem content len :=
      linesFrom_congr (fun i hi => if_pos hi) (Nat.le_add_right _ _)
    rwa [hcongr]

/-- Behind the line is its newline, or the byte behind the file. -/
theorem behind_line {b : UInt8} (h : (src, n) ∈ findLines mem content len)
    (hb : src + n < content + len → b = newline) : behind mem (content + len) b (src + n) = b := by
  obtain ⟨hle, -, hended, -⟩ := isLine_of_mem h
  rw [behind]
  split
  · rename_i hlt
    rw [hended hlt, hb hlt]
  · exact if_pos (by omega)

/-- What the loop does behind a text at the front of the line and the byte behind it. -/
theorem copyLoop_front {c : UInt8} {tail : List UInt8} (Hsame : SameLine mem mem' content len src n)
    (hline : slice mem src n ++ [mem' (src + n)] = text.flatten ++ c :: tail) (hfits : Fits dst.length w tab 0 0 text)
    (turns : Nat) :
    mem' (src + text.flatten.length) = c ∧ src + text.flatten.length ≤ src + n ∧
    copyLoop mem' (src + n) dst.length w tab (turns + text.length) src 0 0 dst =
      copyLoop mem' (src + n) dst.length w tab turns (src + text.flatten.length) (layout tab 0 text).length
        (column tab 0 text) (layout tab 0 text ++ dst.drop (layout tab 0 text).length) := by
  have hn : n + 1 = text.flatten.length + (c :: tail).length := by
    have := congrArg List.length hline
    rwa [List.length_append, List.length_append, length_slice, List.length_singleton] at this
  have hmem := Hsame.slice_succ
  rw [hline, hn, slice_add] at hmem
  obtain ⟨hmem₁, hmem₂⟩ := List.append_inj hmem (length_slice ..)
  rw [List.length_cons] at hn
  refine ⟨?_, by omega, copyLoop_start hfits hmem₁ (by omega) turns⟩
  rw [slice, List.length_cons, List.range_succ_eq_map] at hmem₂
  exact List.head_eq_of_cons_eq hmem₂

/-- A safe line is clipped. -/
theorem Safe.clips (H : Safe (slice mem src n) (src + n < content + len) dst.length w tab) (hdst : 1 ≤ dst.length)
    (htab : 1 ≤ tab) : Clips mem content len dst src n w tab := by
  obtain ⟨text, tail, hline, hfits, hstop⟩ := @exists_maximal dst.length tab w (slice mem src n) 0 0
  have hlt : (layout tab 0 text).length < dst.length := (hfits.clipping hline hdst).length_lt
  have hle := hfits.length_le htab
  have hn : text.flatten.length + tail.length = n := by
    rw [← List.length_append, ← hline, length_slice]
  refine ⟨layout tab 0 text, hfits.clipping hline hdst, fun mem' Hsame => copyUTF8String_eq hlt ?_⟩
  -- the byte that the loop stops at
  obtain ⟨b, bytes, hbehind⟩ : ∃ b bytes, tail ++ [mem' (src + n)] = b :: bytes :=
    List.exists_cons_of_ne_nil (by simp)
  have hline' : slice mem src n ++ [mem' (src + n)] = text.flatten ++ b :: bytes := by
    rw [hline, List.append_assoc, hbehind]
  obtain ⟨rfl, hsrc, hloop⟩ := copyLoop_front Hsame hline' hfits (dst.length + w.toNat + 1 - text.length)
  have hover := H.not_overflows _ Hsame.ended text _ bytes hline' hfits
  have hblocked : Blocked dst.length w tab (src + n - (src + text.flatten.length)) (column tab 0 text)
      (layout tab 0 text).length (mem' (src + text.flatten.length)) := by
    cases tail with
    | cons b tail =>
      obtain rfl : b = mem' (src + text.flatten.length) := List.head_eq_of_cons_eq hbehind
      have hblocked := hstop _ tail rfl (by rwa [Nat.zero_add])
      rwa [Nat.zero_add, show (mem' (src + text.flatten.length) :: tail).length =
        src + n - (src + text.flatten.length) by omega] at hblocked
    | nil =>
      -- all of the line is copied
      rw [List.length_nil, Nat.add_zero] at hn
      rw [Blocked, hn]
      split
      · rename_i htabByte
        have hended : ¬src + n < content + len := fun hended => by
          rw [Hsame.ended hended] at htabByte
          cases htabByte
        rw [htabByte]
        exact H.tab_le hended text (by rw [hline, List.append_nil]) hfits
      · exact fun _ hc _ => .inl (by omega)
  rw [Nat.sub_add_cancel (by omega)] at hloop
  rw [hloop]
  refine copyLoop_stop hover hblocked hsrc hlt ?_ (by omega) (by omega)
  rw [List.length_append]
  omega

/-- The final NUL is where the loop has come to. -/
theorem fst_copyUTF8String {k : Nat} {buf buf' : List UInt8}
    (hloop : copyLoop mem (src + n) dst.length w tab (dst.length + w.toNat + 1) src 0 0 dst = some (d, buf))
    (h : copyUTF8String mem dst dst.length src n w tab = some (k, buf')) : k = d := by
  rw [copyUTF8String, hloop, Option.bind_eq_bind, Option.bind_some] at h
  obtain ⟨_, -, h⟩ := Option.bind_eq_some_iff.mp h
  exact (Prod.mk.inj (Option.some.inj h)).1.symm

/-- Behind a clipped line there is no byte that takes the column out of the range of `int`. -/
theorem Clips.not_overflows (H : Clips mem content len dst src n w tab) (hmem : (src, n) ∈ findLines mem content len)
    (hdst : 1 ≤ dst.length) (htab : 1 ≤ tab) {b c : UInt8} {tail : List UInt8}
    (hb : src + n < content + len → b = newline) (hline : slice mem src n ++ [b] = text.flatten ++ c :: tail)
    (hfits : Fits dst.length w tab 0 0 text) :
    ¬Overflows dst.length w tab (column tab 0 text) (layout tab 0 text).length c := by
  intro hover
  obtain ⟨out, -, H⟩ := H
  have Hsame := sameLine_behind hmem b
  have hlt := hfits.length_lt hdst
  have hle := hfits.length_le htab
  rw [Nat.zero_add] at hlt
  rw [← behind_line hmem hb] at hline
  obtain ⟨hc, hsrc, hloop⟩ := copyLoop_front Hsame hline hfits (dst.length + w.toNat + 1 - text.length)
  rw [Nat.sub_add_cancel (by omega), copyLoop_overflow (by rwa [hc]) hsrc hlt
    (by rw [List.length_append]; omega)] at hloop
  have hrun := H _ Hsame
  rw [copyUTF8String, hloop] at hrun
  cases hrun

/-- Where the loop has come to behind a line that the file ends with, if nothing follows and if a tab follows. -/
theorem copyLoop_behind (hmem : (src, n) ∈ findLines mem content len) (hended : ¬src + n < content + len)
    (hline : slice mem src n = text.flatten) (hfits : Fits dst.length w tab 0 0 text) (turns : Nat) :
    (∃ dst', copyLoop (behind mem (content + len) 0) (src + n) dst.length w tab (turns + 1 + text.length) src 0 0 dst =
      some ((layout tab 0 text).length, dst')) ∧
    (Room dst.length w tab (column tab 0 text) (layout tab 0 text).length [tabByte] → ∃ dst',
      copyLoop (behind mem (content + len) tabByte) (src + n) dst.length w tab (turns + 1 + 1 + text.length) src 0 0
        dst = some ((layout tab 0 text).length + columns tab (column tab 0 text) tabByte, dst')) := by
  have hfront (b : UInt8) : slice mem src n ++ [behind mem (content + len) b (src + n)] = text.flatten ++ [b] := by
    rw [behind_line hmem fun h => absurd h hended, hline]
  constructor
  · obtain ⟨hc, -, hloop⟩ := copyLoop_front (sameLine_behind hmem 0) (hfront 0) hfits (turns + 1)
    exact ⟨_, hloop.trans (copyLoop_nul hc turns)⟩
  · intro hroom
    obtain ⟨hc, -, hloop⟩ := copyLoop_front (sameLine_behind hmem tabByte) (hfront tabByte) hfits (turns + 1 + 1)
    have hwritten : (written tab (column tab 0 text) [tabByte]).length = columns tab (column tab 0 text) tabByte :=
      List.length_replicate
    have hslice : slice (behind mem (content + len) tabByte) (src + text.flatten.length) [tabByte].length = [tabByte] :=
      congrArg (fun b => [b]) hc
    have hnul : behind mem (content + len) tabByte (src + text.flatten.length + [tabByte].length) = 0 := by
      have := (isLine_of_mem hmem).le
      rw [← hline, length_slice, List.length_singleton, behind, if_neg (by omega), if_neg (by omega)]
    have hdst : dst.length ≤ (layout tab 0 text).length + (dst.drop (layout tab 0 text).length).length := by
      rw [List.length_drop]
      omega
    rw [copyLoop_character (by decide) hroom hslice (fun h => absurd rfl h) hdst, copyLoop_nul hnul,
      List.length_append, hwritten] at hloop
    exact ⟨_, hloop⟩

/-- A clipped line is safe. -/
theorem Clips.safe (H : Clips mem content len dst src n w tab) (hmem : (src, n) ∈ findLines mem content len)
    (hdst : 1 ≤ dst.length) (htab : 1 ≤ tab) :
    Safe (slice mem src n) (src + n < content + len) dst.length w tab where
  not_overflows _ hb _ _ _ hline hfits := H.not_overflows hmem hdst htab hb hline hfits
  tab_le hended text hline hfits := by
    by_contra hnot
    have hlt : (layout tab 0 text).length + columns tab (column tab 0 text) tabByte < dst.length :=
      Nat.lt_of_not_le hnot
    have hone := one_le_columns htab (column tab 0 text) tabByte
    have hle := hfits.length_le htab
    have hline' : slice mem src n ++ [tabByte] = text.flatten ++ tabByte :: [] := by rw [hline]
    have hover := H.not_overflows hmem hdst htab (fun h => absurd h hended) hline' hfits
    have hroom : Room dst.length w tab (column tab 0 text) (layout tab 0 text).length [tabByte] := by
      refine ⟨?_, Nat.lt_of_not_le fun h => hover ⟨by decide, fun _ => hlt, .inl h⟩, fun h => absurd rfl h⟩
      rwa [written, List.headD_cons, if_pos rfl, List.length_replicate]
    obtain ⟨⟨_, hnothing⟩, -⟩ :=
      copyLoop_behind hmem hended hline hfits (dst.length + w.toNat - text.length)
    obtain ⟨-, htabBehind⟩ :=
      copyLoop_behind hmem hended hline hfits (dst.length + w.toNat - 1 - text.length)
    obtain ⟨_, htabBehind⟩ := htabBehind hroom
    obtain ⟨out, -, H⟩ := H
    rw [show dst.length + w.toNat - text.length + 1 + text.length = dst.length + w.toNat + 1 by omega] at hnothing
    rw [show dst.length + w.toNat - 1 - text.length + 1 + 1 + text.length = dst.length + w.toNat + 1 by omega]
      at htabBehind
    have hout := fst_copyUTF8String hnothing (H _ (sameLine_behind hmem 0))
    have hout' := fst_copyUTF8String htabBehind (H _ (sameLine_behind hmem tabByte))
    omega

theorem columns_le (x : Nat) (b : UInt8) : columns tab x b ≤ tab + 2 := by
  rw [columns]
  split
  · omega
  · split <;> omega

/-- A character takes no more columns than bytes. -/
theorem IsCharacter.columns_le {ch : List UInt8} (h : IsCharacter ch) :
    columns tab x (ch.headD 0) ≤ (written tab x ch).length := by
  have hpos := List.length_pos_iff.mpr h.ne_nil
  rw [written]
  split
  · rw [List.length_replicate]
  · rename_i htab
    rw [columns, if_neg htab]
    split
    · exact hpos
    · rename_i hge
      rw [UInt8.lt_iff_toNat_lt] at hge
      have hsize := h.2
      rcases CommandLine.CountUTF8Size_cases (ch.headD 0) with ⟨-, hlt⟩ | h | h | h | h
      · exact absurd hlt hge
      all_goals omega

theorem Fits.column_le (H : Fits dstEnd w tab x d text) : column tab x text ≤ x + (layout tab x text).length := by
  induction text generalizing x d with
  | nil => exact le_rfl
  | cons ch text ih =>
    have hrest := ih H.2.2
    have hch : columns tab x (ch.headD 0) ≤ (written tab x ch).length := H.1.columns_le
    rw [column, layout, List.length_append]
    omega

/-- Lines that end with a newline are safe, unless the sizes come near to the end of the range of `int`. -/
theorem Safe.of_ended {ended : Prop} (hended : ended) (hdst : 1 ≤ dstEnd) (hw : w ≤ 2 ^ 31 - 2)
    (hsize : dstEnd + tab + 2 < 2 ^ 31) : Safe line ended dstEnd w tab := by
  refine ⟨fun b _ text c tail _ hfits => ?_, fun h => absurd hended h⟩
  have hcolumn := hfits.column_le
  have hlt := hfits.length_lt hdst
  have hle := @columns_le tab (column tab 0 text) c
  rintro ⟨-, -, hover | ⟨-, j, hj, hover⟩⟩
  · omega
  · omega

/-- A line is clipped if and only if it is safe. -/
theorem copyUTF8String_clips_iff (hline : (src, n) ∈ findLines mem content len) (hdst : 1 ≤ dst.length)
    (htab : 1 ≤ tab) :
    Clips mem content len dst src n w tab ↔
      Safe (slice mem src n) (src + n < content + len) dst.length w tab :=
  ⟨fun H => H.safe hline hdst htab, fun H => H.clips hdst htab⟩

end

/-- A tab, a character of two bytes, a newline and a letter. -/
def tabbedFile (i : Nat) : UInt8 := [tabByte, 0xc3, 0xa9, newline, 0x61].getD i 0

theorem copyUTF8String_clips_iff_tabbed : Clips tabbedFile 0 5 (List.replicate 16 0xff) 0 3 80 8 :=
  (copyUTF8String_clips_iff (by decide) (by decide) (by decide)).mpr
    (Safe.of_ended (by decide) (by decide) (by decide) (by decide))

/-- A letter without a newline. -/
def letterFile (i : Nat) : UInt8 := if i = 0 then 0x61 else 0

/-- If a tab lies behind the file, its blanks are shown at the end of the last line. -/
theorem copyUTF8String_tab_behind : (0, 1) ∈ findLines letterFile 0 1 ∧
    ¬Clips letterFile 0 1 (List.replicate 16 0xff) 0 1 80 8 := by
  have hline : (0, 1) ∈ findLines letterFile 0 1 := by decide
  refine ⟨hline, fun ⟨out, _, H⟩ => ?_⟩
  have hnothing : copyUTF8String letterFile (List.replicate 16 0xff) 16 0 1 80 8 =
      some (1, 0x61 :: 0 :: List.replicate 14 0xff) := by decide
  have htab : copyUTF8String (behind letterFile 1 tabByte) (List.replicate 16 0xff) 16 0 1 80 8 =
      some (8, 0x61 :: List.replicate 7 0x20 ++ 0 :: List.replicate 7 0xff) := by decide
  have hout := (H _ ⟨rfl, hline⟩).symm.trans hnothing
  have hout' := (H _ (sameLine_behind hline tabByte)).symm.trans htab
  have h := congrArg Prod.fst (Option.some.inj hout)
  rw [congrArg Prod.fst (Option.some.inj hout')] at h
  cases h

end MikanOS.TextViewer
