import Mathlib.Data.List.DropRight
import MikanOS.Fat.CreatedFile
import MikanOS.Terminal.PrintToFD

/-! # Listed names

`ReadName` and `FormatName` of `fat.cpp` as stores into the array of the caller, and what `NameIsEqual` says
of the text that `ls` prints. -/

namespace MikanOS.Fat

open CString CommandLine

/-! ## The name of an entry as a text -/

/-- The loop of `ReadName` over the last `n` bytes of a field that begins at `field`. -/
def stripBlanks (field : Nat) : (n : Nat) → (buf : List UInt8) → Option (List UInt8)
  | 0, buf => some buf
  | n + 1, buf =>
    if buf[field + n]? = some 0x20 then (storeBytes buf (field + n) [0]).bind (stripBlanks field n)
    else some buf

/-- One half of `ReadName`: `bytes` copied, a zero behind them, and zeros for the blanks at their end. -/
def readField (buf : List UInt8) (field : Nat) (bytes : List UInt8) : Option (List UInt8) := do
  let copied ← storeBytes buf field bytes
  let ended ← storeBytes copied (field + bytes.length) [0]
  stripBlanks field bytes.length ended

/-- `ReadName`, which stores the base from `base` on and the extension from `ext + extField` on. -/
def ReadName (e : DirectoryEntry) (base ext : List UInt8) (extField : Nat) :
    Option (List UInt8 × List UInt8) := do
  let base ← readField base 0 (e.name.toList.take 8)
  let ext ← readField ext extField (e.name.toList.drop 8)
  return (base, ext)

/-- `FormatName`. `none`: a byte is stored outside of `dest`. -/
def FormatName (e : DirectoryEntry) (dest : List UInt8) : Option (List UInt8) := do
  let (dest, ext) ← ReadName e dest [Path.dot, 0, 0, 0, 0] 1
  if ext[1]? = some 0 then some dest else strcat dest ext

variable {e : DirectoryEntry} {front bytes old back dest : List UInt8} {field : Nat}

/-- A field without the blanks at its end. -/
abbrev stripped (bytes : List UInt8) : List UInt8 := bytes.rdropWhile (· = 0x20)

theorem length_stripped (bytes : List UInt8) : (stripped bytes).length ≤ bytes.length :=
  (List.rdropWhile_prefix _ bytes).length_le

/-- The zeros that stand for the blanks. -/
abbrev blanks (bytes : List UInt8) : List UInt8 :=
  .replicate (bytes.length - (stripped bytes).length) 0

theorem stripBlanks_append (hfield : front.length = field) :
    stripBlanks field bytes.length (front ++ (bytes ++ back)) =
      some (front ++ (stripped bytes ++ (blanks bytes ++ back))) := by
  induction bytes using List.reverseRecOn generalizing back with
  | nil => rfl
  | append_singleton bytes ch ih =>
    have hget : (front ++ (bytes ++ [ch] ++ back))[field + bytes.length]? = some ch := by
      subst hfield
      simp
    rw [List.length_append, List.length_singleton, stripBlanks, hget]
    by_cases hch : ch = 0x20
    · subst hch
      have hstore : storeBytes (front ++ (bytes ++ [0x20] ++ back)) (field + bytes.length) [0] =
          some (front ++ (bytes ++ 0 :: back)) := by
        have h : storeBytes (front ++ bytes ++ ([0x20] ++ back)) (field + bytes.length) [0] =
            some (front ++ bytes ++ ([0] ++ back)) :=
          storeBytes_append (by rw [List.length_append, hfield]) rfl
        simpa using h
      have hstripped : stripped (bytes ++ [0x20]) = stripped bytes := by
        rw [stripped, List.rdropWhile_concat_pos _ _ _ (by decide)]
      have hblanks : blanks (bytes ++ [0x20]) = blanks bytes ++ [0] := by
        rw [blanks, hstripped, List.length_append, List.length_singleton,
          Nat.sub_add_comm (length_stripped bytes), List.replicate_succ']
      rw [if_pos rfl, hstore, Option.bind_some, ih, hstripped, hblanks, List.append_assoc,
        List.singleton_append]
    · have hstripped : stripped (bytes ++ [ch]) = bytes ++ [ch] := by
        rw [stripped, List.rdropWhile_concat_neg _ _ _ (by simp [hch])]
      rw [if_neg (mt Option.some.inj hch), blanks, hstripped, Nat.sub_self, List.replicate_zero,
        List.nil_append]

theorem readField_append (hfield : front.length = field) (hold : old.length = bytes.length + 1) :
    readField (front ++ (old ++ back)) field bytes =
      some (front ++ (stripped bytes ++ (blanks bytes ++ 0 :: back))) := by
  obtain ⟨old, last, rfl⟩ : ∃ old' last, old = old' ++ [last] := by
    cases old using List.reverseRecOn with
    | nil => cases hold
    | append_singleton old last => exact ⟨old, last, rfl⟩
  rw [List.length_append, List.length_singleton] at hold
  have hcopied : storeBytes (front ++ (old ++ ([last] ++ back))) field bytes =
      some (front ++ (bytes ++ ([last] ++ back))) := storeBytes_append hfield (Nat.succ.inj hold)
  have hended : storeBytes (front ++ (bytes ++ ([last] ++ back))) (field + bytes.length) [0] =
      some (front ++ (bytes ++ ([0] ++ back))) := by
    rw [← List.append_assoc front, ← List.append_assoc front]
    exact storeBytes_append (by rw [List.length_append, hfield]) rfl
  rw [readField, List.append_assoc, hcopied]
  change (storeBytes _ _ _).bind _ = _
  rw [hended]
  exact stripBlanks_append hfield

/-- `readField` stores a field, the zeros behind it and nothing else. -/
theorem readField_spec {buf : List UInt8} (h : field + bytes.length < buf.length) :
    ∃ buf', readField buf field bytes = some buf' ∧ string buf' field = nameField bytes ∧
      buf'.length = buf.length ∧ buf'.take field = buf.take field ∧
      ∀ n, field + bytes.length < n → buf'.drop n = buf.drop n := by
  have hfield : (buf.take field).length = field := by rw [List.length_take]; omega
  have hsplit : buf = buf.take field ++ ((buf.drop field).take (bytes.length + 1) ++
      buf.drop (field + (bytes.length + 1))) := by
    rw [← List.drop_drop, List.take_append_drop, List.take_append_drop]
  generalize buf.drop (field + (bytes.length + 1)) = back at hsplit
  have hold : ((buf.drop field).take (bytes.length + 1)).length = bytes.length + 1 := by
    rw [List.length_take, List.length_drop]
    omega
  generalize (buf.drop field).take (bytes.length + 1) = old at *
  generalize buf.take field = front at *
  subst hsplit
  have hlength := length_stripped bytes
  refine ⟨_, readField_append hfield hold, ?_, ?_, ?_, fun n hn => ?_⟩
  · have hzeros : blanks bytes ++ 0 :: back = 0 :: (blanks bytes ++ back) := by
      rw [← List.singleton_append, ← List.append_assoc, ← List.replicate_succ', List.replicate_succ,
        List.cons_append]
    rw [string_drop, ← hfield, List.drop_left, hzeros, string_append_zero, nameField]
  · simp only [List.length_append, List.length_cons, List.length_replicate, hold]
    omega
  · rw [← hfield, List.take_left]
  · have hmid : stripped bytes ++ (blanks bytes ++ 0 :: back) =
        stripped bytes ++ (blanks bytes ++ [0]) ++ back := by simp
    have hmidLength : (stripped bytes ++ (blanks bytes ++ [0])).length = old.length := by
      simp only [List.length_append, List.length_replicate, List.length_singleton, hold]
      omega
    rw [hmid, drop_append_append (by omega), drop_append_append (by omega), hmidLength]

theorem getElem_eq_zero_iff {buf : List UInt8} {p : Nat} (h : p < buf.length) :
    buf[p]? = some 0 ↔ string buf p = [] := by
  rw [string, List.drop_eq_getElem_cons h, List.getElem?_eq_getElem h, List.takeWhile_cons]
  simp

/-- `FormatName` stores at most 13 bytes, and they begin with the text that `formatName` gives. -/
theorem FormatName_eq (e : DirectoryEntry) (h : 13 ≤ dest.length) :
    ∃ dest', FormatName e dest = some dest' ∧ string dest' 0 = formatName e ∧
      dest'.length = dest.length ∧ dest'.drop 13 = dest.drop 13 := by
  have hbaseLength : (e.name.toList.take 8).length = 8 := by simp
  have hextLength : (e.name.toList.drop 8).length = 3 := by simp
  rw [formatName, FormatName, ReadName]
  generalize e.name.toList.take 8 = base at *
  generalize e.name.toList.drop 8 = ext at *
  obtain ⟨filled, hfilled, hbaseText, hlength, -, hback⟩ := @readField_spec base 0 dest (by omega)
  obtain ⟨extBuf, hextBuf, hextText, hextBufLength, hdot, -⟩ :=
    @readField_spec ext 1 [Path.dot, 0, 0, 0, 0] (by rw [hextLength]; decide)
  have hempty := @getElem_eq_zero_iff extBuf 1 (by rw [hextBufLength]; decide)
  have hdotText : string extBuf 0 = Path.dot :: nameField ext := by
    rw [← hextText, string, string, List.drop_zero]
    calc extBuf.takeWhile (· ≠ 0)
      _ = (Path.dot :: extBuf.drop 1).takeWhile (· ≠ 0) := by
        conv_lhs => rw [← List.take_append_drop 1 extBuf, hdot]
        rfl
      _ = Path.dot :: (extBuf.drop 1).takeWhile (· ≠ 0) := List.takeWhile_cons_of_pos (by decide)
  rw [hfilled]
  change ∃ dest', ((readField _ 1 ext).bind fun ext => some (filled, ext)).bind _ = _ ∧ _
  rw [hextBuf]
  change ∃ dest', (if extBuf[1]? = some 0 then some filled else strcat filled extBuf) = _ ∧ _
  rw [hextText] at hempty
  by_cases hnone : nameField ext = []
  · rw [if_pos (hempty.mpr hnone)]
    refine ⟨filled, rfl, ?_, hlength, hback 13 (by omega)⟩
    simp only [hnone, if_true, hbaseText]
  · rw [if_neg (mt hempty.mp hnone)]
    have hbaseField := length_nameField base
    have hextField := length_nameField ext
    obtain ⟨dest', hcat, htext, hcatLength, hkept⟩ := @strcat_eq filled extBuf (by
      rw [hbaseText, hdotText, hlength, List.length_cons]
      omega)
    refine ⟨dest', hcat, ?_, hcatLength.trans hlength, ?_⟩
    · simp only [if_neg hnone, htext, hbaseText, hdotText]
    · rw [hkept 13 (by rw [hbaseText, hdotText, List.length_cons]; omega), hback 13 (by omega)]

/-! ## Finding an entry by the text -/

/-- The name bytes are printable ASCII without lower-case letters and dots. -/
def Listed (e : DirectoryEntry) : Prop :=
  ∀ ch ∈ e.name.toList, 0x20 ≤ ch ∧ ch ≤ 0x7e ∧ ¬(0x61 ≤ ch ∧ ch ≤ 0x7a) ∧ ch ≠ Path.dot

instance (e : DirectoryEntry) : Decidable (Listed e) := inferInstanceAs (Decidable (∀ ch ∈ _, _))

/-- Behind a field are blanks. -/
theorem getD_stripped (bytes : List UInt8) (j : Nat) : (stripped bytes).getD j 0x20 = bytes.getD j 0x20 := by
  induction bytes using List.reverseRecOn with
  | nil => rfl
  | append_singleton bytes ch ih =>
    by_cases hch : ch = 0x20
    · rw [stripped, List.rdropWhile_concat_pos _ _ _ (by simp [hch]), ih, hch]
      rcases Nat.lt_trichotomy j bytes.length with hlt | rfl | hgt
      · rw [List.getD_append _ _ _ _ hlt]
      · rw [List.getD_eq_default _ _ le_rfl, List.getD_append_right _ _ _ _ le_rfl, Nat.sub_self]
        rfl
      · rw [List.getD_eq_default _ _ hgt.le, List.getD_eq_default]
        rw [List.length_append, List.length_singleton]
        exact hgt
    · rw [stripped, List.rdropWhile_concat_neg _ _ _ (by simp [hch])]

theorem nameField_eq_stripped (h : 0 ∉ bytes) : nameField bytes = stripped bytes := by
  refine List.takeWhile_eq_self_iff.mpr fun ch hch => decide_eq_true ?_
  exact ne_of_mem_of_not_mem ((List.rdropWhile_prefix _ bytes).subset hch) h

theorem nameIsEqual_formatName (h : Listed e) : NameIsEqual e (formatName e) := by
  have hzero (part : List UInt8) (hpart : part ⊆ e.name.toList) : 0 ∉ part := fun h0 =>
    absurd (h 0 (hpart h0)).1 (by decide)
  have hdot (part : List UInt8) (hpart : part ⊆ e.name.toList) : Path.dot ∉ stripped part := fun hmem =>
    (h _ (hpart ((List.rdropWhile_prefix _ part).subset hmem))).2.2.2 rfl
  have hbaseSub : e.name.toList.take 8 ⊆ e.name.toList := List.take_subset ..
  have hextSub : e.name.toList.drop 8 ⊆ e.name.toList := List.drop_subset ..
  have hsplit : Name83 (formatName e) (stripped (e.name.toList.take 8)) (stripped (e.name.toList.drop 8)) := by
    refine ⟨?_, hdot _ hbaseSub, hdot _ hextSub, (length_stripped _).trans (by simp),
      (length_stripped _).trans (by simp)⟩
    rw [formatName, nameField_eq_stripped (hzero _ hbaseSub), nameField_eq_stripped (hzero _ hextSub)]
    split
    · next hnone => exact .inl ⟨rfl, hnone⟩
    · exact .inr rfl
  rw [NameIsEqual, ← hsplit.stored]
  apply Vector.ext
  intro j hj
  have hplace : (if j < 8 then (e.name.toList.take 8).getD j 0x20
      else (e.name.toList.drop 8).getD (j - 8) 0x20) = getElem e.name j hj := by
    split
    · next hlow => simp [hlow]
    · next hhigh =>
      have hadd : 8 + (j - 8) = j := Nat.add_sub_cancel' (Nat.le_of_not_lt hhigh)
      simp [hadd, hj]
  rw [storedName_getElem hsplit, getD_stripped, getD_stripped, hplace, toupper,
    if_neg (h (getElem e.name j hj) (by simp)).2.2.1]

/-- Whatever stands in the array of 13 or more bytes, the text that `FormatName` stores is the name of this
entry and of no other, and the bytes behind the first 13 are as before. -/
theorem formatName_opens (h : Listed e) (hdest : 13 ≤ dest.length) :
    ∃ dest', FormatName e dest = some dest' ∧ dest'.length = dest.length ∧ dest'.drop 13 = dest.drop 13 ∧
      NameIsEqual e (string dest' 0) ∧
      ∀ e' : DirectoryEntry, Listed e' → e'.name ≠ e.name → ¬NameIsEqual e' (string dest' 0) := by
  obtain ⟨dest', hformat, htext, hlength, hkept⟩ := FormatName_eq e hdest
  have hopens : NameIsEqual e (string dest' 0) := htext ▸ nameIsEqual_formatName h
  exact ⟨dest', hformat, hlength, hkept, hopens, fun e' _ hne heq => hne (heq.trans hopens.symm)⟩

/-- `A B.C`, in an array of 13 bytes. -/
theorem formatName_opens_blank :
    ∃ dest', FormatName ⟨#v[0x41, 0x20, 0x42, 0x20, 0x20, 0x20, 0x20, 0x20, 0x43, 0x20, 0x20], 0x20, 0, 2, 1⟩
        (.replicate 13 0xff) = some dest' ∧ dest'.length = 13 ∧ dest'.drop 13 = [] ∧
      NameIsEqual ⟨#v[0x41, 0x20, 0x42, 0x20, 0x20, 0x20, 0x20, 0x20, 0x43, 0x20, 0x20], 0x20, 0, 2, 1⟩
        (string dest' 0) ∧
      ∀ e' : DirectoryEntry, Listed e' →
        e'.name ≠ #v[0x41, 0x20, 0x42, 0x20, 0x20, 0x20, 0x20, 0x20, 0x43, 0x20, 0x20] →
        ¬NameIsEqual e' (string dest' 0) :=
  formatName_opens (by decide +kernel) (by decide)

end MikanOS.Fat
