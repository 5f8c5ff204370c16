import MikanOS.Terminal.LineAccess

/-! # What was typed

The line buffer at an Enter: the characters that were typed, with a zero behind them. -/

namespace MikanOS.CommandLine

namespace Shell

variable {t : Shell} {line : List UInt8} {p i : Nat}

/-- The line buffer holds `line`, with a zero behind it. -/
structure Holds (t : Shell) (line : List UInt8) : Prop where
  bytes : ∃ rest, t.line.bytes = line ++ 0 :: rest
  length : t.linebufIndex.val = line.length
  not_mem : 0 ∉ line

namespace Holds

theorem zero (H : t.Holds line) : t.line.bytes[line.length]? = some 0 := by
  obtain ⟨rest, hrest⟩ := H.bytes
  rw [hrest, List.getElem?_append_right (Nat.le_refl _), Nat.sub_self]
  rfl

/-- The string at a place of the line is the rest of the line. -/
theorem string (H : t.Holds line) (hp : p ≤ line.length) : CString.string t.line.bytes p = line.drop p := by
  obtain ⟨rest, hrest⟩ := H.bytes
  rw [hrest, CString.string, List.drop_append_of_le_length hp, List.takeWhile_append_of_pos]
  · simp
  · intro c hc
    refine decide_eq_true fun h => H.not_mem ?_
    rw [← h]
    exact List.mem_of_mem_drop hc

theorem string_zero (H : t.Holds line) : CString.string t.line.bytes 0 = line := H.string (Nat.zero_le _)

theorem getElem?_bytes (H : t.Holds line) (hi : i < line.length) : t.line.bytes[i]? = (line)[i]? := by
  obtain ⟨rest, hrest⟩ := H.bytes
  rw [hrest, List.getElem?_append_left hi]

theorem strchr (H : t.Holds line) (c : UInt8) :
    CString.strchr t.line.bytes 0 c = if c ∈ line then some (line.idxOf c) else none := by
  rw [CString.strchr, H.string_zero, Nat.zero_add]

end Holds

/-- What was typed since the last Enter. -/
def typedLine (t : Shell) : List UInt8 := t.line.bytes.take t.linebufIndex

/-- A terminated line holds what was typed. -/
theorem holds_terminated (h : t.typedLine = line) (hzero : 0 ∉ line) : t.terminated.Holds line := by
  have hlt := t.linebufIndex.isLt
  have hlen := t.line.length_bytes
  refine ⟨⟨t.line.bytes.drop (t.linebufIndex + 1), ?_⟩, ?_, hzero⟩
  · show (t.line.fresh.store t.linebufIndex.val 0).bytes = _
    rw [LineBuf.store_natCast, ← h, typedLine]
    exact List.set_eq_take_append_cons_drop.trans (if_pos (hlen.symm ▸ hlt))
  · rw [← h, typedLine, List.length_take, hlen]
    exact (Nat.min_eq_left (Nat.le_of_lt hlt)).symm

end Shell

end MikanOS.CommandLine
