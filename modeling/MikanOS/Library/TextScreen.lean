import Mathlib

/-! # The last lines of a text

A screen of `rows` rows and `columns` columns that shows the last lines of a text, each up to its last column. The
lines end at a separator, and what does not fit into a row is not shown. -/

namespace TextScreen

variable {α : Type*} [DecidableEq α] {sep c : α} {text : List α} {rows columns : Nat}

/-- The lines on the screen. -/
def visible (sep : α) (rows : Nat) (text : List α) : List (List α) :=
  (text.splitOn sep).drop ((text.splitOn sep).length - rows)

/-- What stands in a row and a column. -/
def cell (sep : α) (rows columns : Nat) (text : List α) (row column : Nat) : Option α :=
  if column < columns then (visible sep rows text)[row]?.bind (·[column]?) else none

/-- The row of the last line. -/
def cursorRow (sep : α) (rows : Nat) (text : List α) : Nat := (visible sep rows text).length - 1

/-- The column behind the last line, or the last one. -/
def cursorColumn (sep : α) (columns : Nat) (text : List α) : Nat :=
  min ((text.splitOn sep).getLastD []).length columns

theorem splitOn_concat_sep : (text ++ [sep]).splitOn sep = text.splitOn sep ++ [[]] := by
  rw [List.splitOn_append_cons_self, List.splitOn_nil]

/-- A character goes to the end of the last line. -/
theorem splitOn_concat (h : c ≠ sep) : ∃ ls l, text.splitOn sep = ls ++ [l] ∧
    (text ++ [c]).splitOn sep = ls ++ [l ++ [c]] := by
  induction text with
  | nil =>
    refine ⟨[], [], List.splitOn_nil _, ?_⟩
    rw [List.nil_append, List.splitOn_eq_singleton (by simpa using h.symm)]
    rfl
  | cons x text ih =>
    obtain ⟨ls, l, htext, hconcat⟩ := ih
    rw [List.cons_append, List.splitOn_cons_eq_if_modifyHead, List.splitOn_cons_eq_if_modifyHead, htext, hconcat]
    split
    · exact ⟨[] :: ls, l, rfl, rfl⟩
    · cases ls with
      | nil => exact ⟨[], x :: l, rfl, rfl⟩
      | cons l' ls => exact ⟨(x :: l') :: ls, l, rfl, rfl⟩

theorem length_visible : (visible sep rows text).length = min (text.splitOn sep).length rows := by
  rw [visible, List.length_drop]
  omega

theorem splitOn_length_pos : 0 < (text.splitOn sep).length := by
  rw [List.length_pos_iff]
  exact List.splitOn_ne_nil sep text

/-! ## One character more -/

/-- A new line below the others. -/
theorem visible_sep_of_lt (h : (text.splitOn sep).length < rows) :
    visible sep rows (text ++ [sep]) = visible sep rows text ++ [[]] := by
  have hold : (text.splitOn sep).length - rows = 0 := by omega
  have hnew : (text.splitOn sep).length + 1 - rows = 0 := by omega
  rw [visible, visible, splitOn_concat_sep, List.length_append, List.length_singleton, hnew, hold]
  rfl

/-- A new line for which the first one makes room. -/
theorem visible_sep_of_le (h : rows ≤ (text.splitOn sep).length) (hrows : 0 < rows) :
    visible sep rows (text ++ [sep]) = (visible sep rows text).tail ++ [[]] := by
  rw [visible, visible, splitOn_concat_sep, List.length_append, List.length_singleton, List.tail_drop,
    List.drop_append_of_le_length (by omega)]
  congr 2
  omega

theorem cell_sep_of_lt (h : (text.splitOn sep).length < rows) (row column : Nat) :
    cell sep rows columns (text ++ [sep]) row column = cell sep rows columns text row column := by
  simp only [cell, visible_sep_of_lt h, List.getElem?_append]
  split
  · split
    · rfl
    · rename_i hrow
      rw [List.getElem?_eq_none (Nat.not_lt.mp hrow)]
      cases (row - (visible sep rows text).length) <;> simp
  · rfl

/-- The rows move up. -/
theorem cell_sep_of_le (h : rows ≤ (text.splitOn sep).length) (hrows : 0 < rows) (row column : Nat) :
    cell sep rows columns (text ++ [sep]) row column = cell sep rows columns text (row + 1) column := by
  simp only [cell, visible_sep_of_le h hrows, List.getElem?_append, List.getElem?_tail]
  split
  · split
    · rfl
    · rename_i hrow
      rw [List.length_tail] at hrow
      rw [List.getElem?_eq_none (l := visible sep rows text) (by omega)]
      cases (row - (visible sep rows text).tail.length) <;> simp
  · rfl

theorem cell_concat (h : c ≠ sep) (hrows : 0 < rows) (row column : Nat) :
    cell sep rows columns (text ++ [c]) row column =
      if row = cursorRow sep rows text ∧ column = cursorColumn sep columns text ∧ column < columns then some c
      else cell sep rows columns text row column := by
  obtain ⟨ls, l, htext, hconcat⟩ := @splitOn_concat _ _ _ _ text h
  have hdrop : ∀ l', (ls ++ [l']).drop ((ls ++ [l']).length - rows) = ls.drop (ls.length + 1 - rows) ++ [l'] := by
    intro l'
    rw [List.length_append, List.length_singleton, List.drop_append_of_le_length (by omega)]
  have hcursor : cursorRow sep rows text = (ls.drop (ls.length + 1 - rows)).length := by
    rw [cursorRow, visible, htext, hdrop, List.length_append, List.length_singleton, Nat.add_sub_cancel]
  have hcolumn : cursorColumn sep columns text = min l.length columns := by
    rw [cursorColumn, htext, List.getLastD_concat]
  simp only [cell, visible, htext, hconcat, hdrop, hcursor, hcolumn, List.getElem?_append]
  generalize ls.drop (ls.length + 1 - rows) = above
  by_cases hcol : column < columns
  · simp only [if_pos hcol]
    rcases Nat.lt_trichotomy row above.length with hlt | rfl | hgt
    · simp [hlt, Nat.ne_of_lt hlt]
    · rcases Nat.lt_trichotomy column l.length with hin | rfl | hout
      · have hne : column ≠ min l.length columns := by omega
        simp [hne, hin, List.getElem?_append]
      · simp [Nat.min_eq_left hcol.le, hcol]
      · have hne : column ≠ min l.length columns := by omega
        have hnone : (l ++ [c])[column]? = none := by simpa using hout
        simp [hne, hnone, List.getElem?_eq_none hout.le]
    · obtain ⟨k, rfl⟩ := Nat.exists_eq_add_of_lt hgt
      have hk : above.length + k + 1 - above.length = k + 1 := by omega
      have hne : above.length + k + 1 ≠ above.length := by omega
      simp [hk, hne]
  · simp [hcol]

/-! ## The cursor -/

theorem cursorRow_eq : cursorRow sep rows text = min (text.splitOn sep).length rows - 1 := by
  rw [cursorRow, length_visible]

theorem cursorRow_sep : cursorRow sep rows (text ++ [sep]) =
    if (text.splitOn sep).length < rows then cursorRow sep rows text + 1 else rows - 1 := by
  have hpos := @splitOn_length_pos _ _ sep text
  rw [cursorRow_eq, cursorRow_eq, splitOn_concat_sep, List.length_append, List.length_singleton]
  split <;> omega

theorem cursorColumn_sep : cursorColumn sep columns (text ++ [sep]) = 0 := by
  rw [cursorColumn, splitOn_concat_sep, List.getLastD_concat, List.length_nil, Nat.zero_min]

theorem cursorRow_concat (h : c ≠ sep) : cursorRow sep rows (text ++ [c]) = cursorRow sep rows text := by
  obtain ⟨ls, l, htext, hconcat⟩ := @splitOn_concat _ _ _ _ text h
  simp only [cursorRow_eq, htext, hconcat, List.length_append, List.length_singleton]

theorem cursorColumn_concat (h : c ≠ sep) : cursorColumn sep columns (text ++ [c]) =
    if cursorColumn sep columns text < columns then cursorColumn sep columns text + 1
    else cursorColumn sep columns text := by
  obtain ⟨ls, l, htext, hconcat⟩ := @splitOn_concat _ _ _ _ text h
  simp only [cursorColumn, htext, hconcat, List.getLastD_concat, List.length_append, List.length_singleton]
  split <;> omega

theorem cursorRow_lt (hrows : 0 < rows) : cursorRow sep rows text < rows := by
  rw [cursorRow_eq]
  omega

/-! ## What a cell has -/

/-- Nothing stands at the cursor or behind it. -/
theorem cell_cursor {column : Nat} (hrows : 0 < rows) (h : cursorColumn sep columns text ≤ column) :
    cell sep rows columns text (cursorRow sep rows text) column = none := by
  obtain ⟨ls, l, htext⟩ : ∃ ls l, text.splitOn sep = ls ++ [l] :=
    ⟨_, _, (List.dropLast_concat_getLast (List.splitOn_ne_nil sep text)).symm⟩
  have hvisible : visible sep rows text = ls.drop (ls.length + 1 - rows) ++ [l] := by
    rw [visible, htext, List.length_append, List.length_singleton, List.drop_append_of_le_length (by omega)]
  rw [cursorColumn, htext, List.getLastD_concat] at h
  rw [cell, cursorRow, hvisible, List.length_append, List.length_singleton, Nat.add_sub_cancel,
    List.getElem?_concat_length, Option.bind_some]
  split
  · exact List.getElem?_eq_none (by omega)
  · rfl

/-- A row has no gaps. -/
theorem cell_none_of_le {row column column' : Nat} (h : cell sep rows columns text row column = none)
    (hle : column ≤ column') : cell sep rows columns text row column' = none := by
  simp only [cell] at h ⊢
  split
  · rw [if_pos (by omega)] at h
    cases hrow : (visible sep rows text)[row]? with
    | none => rfl
    | some l =>
      rw [hrow, Option.bind_some, List.getElem?_eq_none_iff] at h
      exact List.getElem?_eq_none (h.trans hle)
  · rfl

theorem mem_of_cell {row column : Nat} (hrows : 0 < rows)
    (h : cell sep rows columns text row column = some c) : c ∈ text ∧ c ≠ sep := by
  induction text using List.reverseRecOn generalizing row with
  | nil =>
    rw [cell, visible, List.splitOn_nil] at h
    cases row <;> simp [Nat.sub_eq_zero_of_le hrows] at h
  | append_singleton text x ih =>
    by_cases hx : x = sep
    · subst hx
      have hold : ∃ row', cell x rows columns text row' column = some c := by
        rcases Nat.lt_or_ge (text.splitOn x).length rows with hlt | hge
        · exact ⟨row, (cell_sep_of_lt hlt row column).symm.trans h⟩
        · exact ⟨row + 1, (cell_sep_of_le hge hrows row column).symm.trans h⟩
      obtain ⟨row', hold⟩ := hold
      exact ⟨List.mem_append_left _ (ih hold).1, (ih hold).2⟩
    · rw [cell_concat hx hrows] at h
      split at h
      · obtain rfl := Option.some.inj h
        exact ⟨List.mem_append_right _ (List.mem_singleton_self x), hx⟩
      · exact ⟨List.mem_append_left _ (ih h).1, (ih h).2⟩

end TextScreen
