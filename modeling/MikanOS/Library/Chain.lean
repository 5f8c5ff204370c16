import Mathlib

/-! # Chains in a table of successors

`next` is a table that holds each cell's successor, or a mark for which `isEnd` holds behind the
last cell. A chain is determined by its first cell, so it has no cell twice. The cells of a walk are those of
a chain, or none if it begins at a mark; a loop that follows the successors ends exactly if there is one. -/

namespace LinkedChain

variable {α : Type*}

/-- The cells of the chain from `c` on. -/
inductive Chain (next : α → α) (isEnd : α → Prop) : α → List α → Prop
  | last : isEnd (next c) → Chain next isEnd c [c]
  | link : ¬ isEnd (next c) → Chain next isEnd (next c) cs → Chain next isEnd c (c :: cs)

/-- The cells from `c` on, where `c` may be a mark. -/
inductive Walk (next : α → α) (isEnd : α → Prop) : α → List α → Prop
  | nil : isEnd c → Walk next isEnd c []
  | cons : ¬ isEnd c → Walk next isEnd (next c) cs → Walk next isEnd c (c :: cs)

variable {next next' : α → α} {isEnd : α → Prop} {c x t : α} {cs new : List α}

namespace Chain

theorem ne_nil (h : Chain next isEnd c cs) : cs ≠ [] := by
  cases h with
  | last | link => exact List.cons_ne_nil _ _

theorem head?_eq (h : Chain next isEnd c cs) : cs.head? = some c := by
  cases h with
  | last | link => rfl

theorem unique (h : Chain next isEnd c cs) {cs' : List α} (h' : Chain next isEnd c cs') :
    cs = cs' := by
  induction h generalizing cs' with
  | last hend =>
    cases h' with
    | last => rfl
    | link hlink => exact absurd hend hlink
  | link hlink _ ih =>
    cases h' with
    | last hend => exact absurd hend hlink
    | link _ h' => rw [ih h']

/-- The chain from one of its cells on is a suffix. -/
theorem of_mem (h : Chain next isEnd c cs) (hx : x ∈ cs) :
    ∃ suffix, suffix <:+ cs ∧ Chain next isEnd x suffix := by
  induction h with
  | last hend =>
    obtain rfl := List.mem_singleton.mp hx
    exact ⟨_, List.suffix_refl _, .last hend⟩
  | link hlink h ih =>
    rcases List.mem_cons.mp hx with rfl | hx
    · exact ⟨_, List.suffix_refl _, .link hlink h⟩
    · obtain ⟨suffix, hs, hc⟩ := ih hx
      exact ⟨suffix, hs.trans (List.suffix_cons _ _), hc⟩

theorem nodup (h : Chain next isEnd c cs) : cs.Nodup := by
  induction h with
  | last => exact List.nodup_singleton _
  | link hlink h ih =>
    refine List.nodup_cons.mpr ⟨fun hmem => ?_, ih⟩
    -- the chain from the repeated cell would be a proper suffix of itself
    obtain ⟨suffix, hs, hc⟩ := h.of_mem hmem
    have hlen := congrArg List.length (hc.unique (.link hlink h))
    have hle := hs.length_le
    rw [hlen, List.length_cons] at hle
    exact absurd hle (Nat.not_succ_le_self _)

theorem congr (h : Chain next isEnd c cs) (heq : ∀ y ∈ cs, next' y = next y) :
    Chain next' isEnd c cs := by
  induction h with
  | @last c hend =>
    rw [← heq c List.mem_cons_self] at hend
    exact .last hend
  | @link c cs hlink _ ih =>
    have hc := heq c List.mem_cons_self
    rw [← hc] at hlink ih
    exact .link hlink (ih fun y hy => heq y (List.mem_cons_of_mem _ hy))

theorem tail {p : α} (h : Chain next isEnd c (p :: cs)) (hcs : cs ≠ []) :
    ¬ isEnd (next p) ∧ Chain next isEnd (next p) cs := by
  cases h with
  | last => exact absurd rfl hcs
  | link hlink h => exact ⟨hlink, h⟩

/-- The chain is continued behind its last cell. -/
theorem extend {pre : List α} (h : Chain next isEnd c (pre ++ [t]))
    (heq : ∀ y ∈ pre, next' y = next y) (hnew : Chain next' isEnd t (t :: new)) :
    Chain next' isEnd c (pre ++ t :: new) := by
  induction pre generalizing c with
  | nil =>
    obtain rfl : t = c := by simpa using h.head?_eq
    exact hnew
  | cons p pre ih =>
    obtain rfl : p = c := by simpa using h.head?_eq
    obtain ⟨hlink, h⟩ := h.tail (List.append_ne_nil_of_right_ne_nil _ (List.cons_ne_nil _ _))
    rw [← heq p List.mem_cons_self] at hlink h
    exact .link hlink (ih h fun y hy => heq y (List.mem_cons_of_mem _ hy))

theorem next_getElem (h : Chain next isEnd c cs) {i : Nat} (hi : i + 1 < cs.length) :
    next cs[i] = cs[i + 1] ∧ ¬ isEnd cs[i + 1] := by
  induction h generalizing i with
  | last => simp at hi
  | @link c cs hlink h ih =>
    cases i with
    | zero =>
      have hhead := h.head?_eq
      rw [List.head?_eq_getElem?] at hhead
      obtain ⟨_, h0⟩ := List.getElem?_eq_some_iff.mp hhead
      simp only [List.getElem_cons_zero, List.getElem_cons_succ, h0]
      exact ⟨trivial, hlink⟩
    | succ i => exact ih (by simpa using hi)

theorem isEnd_getLast (h : Chain next isEnd c cs) : isEnd (next (cs.getLast h.ne_nil)) := by
  induction h with
  | last hend => exact hend
  | link _ h ih => rwa [List.getLast_cons h.ne_nil]

/-- The cell in front of the mark is the last one. -/
theorem getLast?_of_isEnd (h : Chain next isEnd c cs) (hx : x ∈ cs) (hend : isEnd (next x)) :
    cs.getLast? = some x := by
  obtain ⟨suffix, hs, hchain⟩ := h.of_mem hx
  have hlast : suffix = [x] := hchain.unique (.last hend)
  rw [hlast] at hs
  obtain ⟨pre, rfl⟩ := hs
  exact List.getLast?_concat

end Chain

namespace Walk

theorem unique (h : Walk next isEnd c cs) {cs' : List α} (h' : Walk next isEnd c cs') : cs = cs' := by
  induction h generalizing cs' with
  | nil hend =>
    cases h' with
    | nil => rfl
    | cons hlink => exact absurd hend hlink
  | cons hlink _ ih =>
    cases h' with
    | nil hend => exact absurd hend hlink
    | cons _ h' => rw [ih h']

theorem not_isEnd (h : Walk next isEnd c cs) (hx : x ∈ cs) : ¬ isEnd x := by
  induction h with
  | nil => exact absurd hx List.not_mem_nil
  | cons hlink _ ih =>
    rcases List.mem_cons.mp hx with rfl | hx
    · exact hlink
    · exact ih hx

/-- No walk leaves a cell that is its own successor. -/
theorem next_ne (h : Walk next isEnd c cs) (hc : ¬ isEnd c) : next c ≠ c := by
  intro heq
  induction h with
  | nil hend => exact hc hend
  | cons _ _ ih =>
    rw [heq] at ih
    exact ih hc heq

end Walk

section Loop

variable {β : Type*} (next) (isEnd) [DecidablePred isEnd] (step : β → α → β)

/-- A loop over the cells from `c` on, for at most `turns` tests of its condition. -/
def loop : Nat → α → β → Option β
  | 0, _, _ => none
  | turns + 1, c, b => if isEnd c then some b else loop turns (next c) (step b c)

variable {next} {isEnd} {step} {b r : β}

theorem loop_of_walk (h : Walk next isEnd c cs) :
    loop next isEnd step (cs.length + 1) c b = some (cs.foldl step b) := by
  induction h generalizing b with
  | nil hend => rw [List.length_nil, loop, if_pos hend, List.foldl_nil]
  | cons hlink _ ih => rw [List.length_cons, loop, if_neg hlink, ih, List.foldl_cons]

theorem walk_of_loop {turns : Nat} (h : loop next isEnd step turns c b = some r) :
    ∃ cs, Walk next isEnd c cs ∧ r = cs.foldl step b := by
  induction turns generalizing c b with
  | zero => cases h
  | succ turns ih =>
    rw [loop] at h
    split at h
    next hend =>
      obtain rfl := Option.some.inj h
      exact ⟨[], .nil hend, rfl⟩
    next hlink =>
      obtain ⟨cs, hw, rfl⟩ := ih h
      exact ⟨c :: cs, .cons hlink hw, rfl⟩

end Loop

variable [DecidableEq α]

/-- The table with `new` linked behind the cell `t`, and the mark `e` at the end. -/
def link (next : α → α) (e : α) (t : α) : List α → α → α
  | [] => Function.update next t e
  | a :: new => link (Function.update next t a) e a new

theorem link_of_notMem {e : α} (ht : x ≠ t) (hx : x ∉ new) : link next e t new x = next x := by
  induction new generalizing t next with
  | nil => exact Function.update_of_ne ht _ _
  | cons a new ih =>
    obtain ⟨ha, hx⟩ := not_or.mp (List.mem_cons.not.mp hx)
    rw [link, ih ha hx, Function.update_of_ne ht]

theorem chain_link {e : α} (he : isEnd e) (hnew : ∀ a ∈ new, ¬ isEnd a)
    (hnd : (t :: new).Nodup) : Chain (link next e t new) isEnd t (t :: new) := by
  induction new generalizing t next with
  | nil => exact .last (by rw [link, Function.update_self]; exact he)
  | cons a new ih =>
    obtain ⟨ht, hnd⟩ := List.nodup_cons.mp hnd
    obtain ⟨hta, hnew'⟩ := not_or.mp (List.mem_cons.not.mp ht)
    have ht' : link next e t (a :: new) t = a := by
      rw [link, link_of_notMem hta hnew', Function.update_self]
    refine .link ?_ ?_ <;> rw [ht']
    · exact hnew a List.mem_cons_self
    · exact ih (fun b hb => hnew b (List.mem_cons_of_mem _ hb)) hnd

end LinkedChain
