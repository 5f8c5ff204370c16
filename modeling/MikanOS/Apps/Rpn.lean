import MikanOS.Graphics.PixelWriter
import MikanOS.Library.Postfix
import MikanOS.Terminal.ExecuteLine

/-! # The calculator

`rpn.cpp`, which takes its arguments as tokens in postfix notation. The numbers are `long`s. -/

namespace MikanOS.Rpn

open CommandLine (isspace newline signed text)
open Postfix (Expr)

/-- A value of the type `long`. The behaviour is undefined if it does not fit. -/
def long (v : Int) : Option Int := if -2 ^ 63 ≤ v ∧ v < 2 ^ 63 then some v else none

def isdigit (ch : UInt8) : Bool := 0x30 ≤ ch && ch ≤ 0x39

/-- The value of digits. -/
def ofDigits (digits : List UInt8) : Nat := digits.foldl (fun n d => 10 * n + (d.toNat - 0x30)) 0

/-- `atol`. -/
def atol (s : List UInt8) : Option Int :=
  match s.dropWhile isspace with
  | 0x2d :: s => long (-ofDigits (s.takeWhile isdigit))
  | 0x2b :: s => long (ofDigits (s.takeWhile isdigit))
  | s => long (ofDigits (s.takeWhile isdigit))

inductive Operator where
  | add | sub | mul | div | rem

/-- The `strcmp`s of the loop. -/
def operator (s : List UInt8) : Option Operator :=
  if s = [0x2b] then some .add
  else if s = [0x2d] then some .sub
  else if s = [0x2a] then some .mul
  else if s = [0x2f] then some .div
  else if s = [0x25] then some .rem
  else none

/-- `a` and `b` with an operator between them. -/
def Operator.apply (o : Operator) (a b : Int) : Option Int :=
  match o with
  | add => long (a + b)
  | sub => long (a - b)
  | mul => long (a * b)
  | div => if b = 0 then none else long (a.tdiv b)
  | rem => if b = 0 then none else (long (a.tdiv b)).map fun _ => a.tmod b

/-- `stack_ptr` and `stack`. -/
structure Stack where
  stackPtr : Int
  stack : Nat → Int

def kStackSize : Nat := 100

namespace Stack

variable (s : Stack)

/-- `Pop`, if it reads an element of the array. -/
def pop : Option (Int × Stack) :=
  if 0 ≤ s.stackPtr ∧ s.stackPtr < kStackSize then
    some (s.stack s.stackPtr.toNat, { s with stackPtr := s.stackPtr - 1 })
  else none

/-- `Push`, if it writes an element of the array. -/
def push (value : Int) : Option Stack :=
  let stackPtr := s.stackPtr + 1
  if 0 ≤ stackPtr ∧ stackPtr < kStackSize then some ⟨stackPtr, Function.update s.stack stackPtr.toNat value⟩
  else none

/-- What an operator does. -/
def operate (o : Operator) : Option Stack := do
  let (b, s) ← s.pop
  let (a, s) ← s.pop
  s.push (← o.apply a b)

/-- A turn of the loop of `main`. -/
def turn (arg : List UInt8) : Option Stack :=
  match operator arg with
  | some o => s.operate o
  | none => do s.push (← atol arg)

end Stack

/-- What is printed, and the argument of `exit`. -/
structure Outcome where
  printed : List UInt8
  exitCode : Int
  deriving DecidableEq

/-- `main` with the arguments behind `argv[0]`. There is no result if its behaviour is undefined. -/
def main (args : List (List UInt8)) : Option Outcome := do
  let s ← args.foldlM Stack.turn ⟨-1, fun _ => 0⟩
  let result ← if 0 ≤ s.stackPtr then s.pop.map (·.1) else some 0
  some ⟨signed result ++ [newline], wrap32 result⟩

/-! ## Expressions -/

/-- An argument that is not an operator. -/
abbrev Literal := { s : List UInt8 // operator s = none }

def Literal.value (s : Literal) : Option Int := atol s.val

def Operator.spelling : Operator → List UInt8
  | add => [0x2b]
  | sub => [0x2d]
  | mul => [0x2a]
  | div => [0x2f]
  | rem => [0x25]

/-- The argument of a token. -/
def spelling : Literal ⊕ Operator → List UInt8
  | .inl s => s.val
  | .inr o => o.spelling

/-- The token of an argument. -/
def token (arg : List UInt8) : Literal ⊕ Operator :=
  match h : operator arg with
  | some o => .inr o
  | none => .inl ⟨arg, h⟩

theorem operator_spelling (o : Operator) : operator o.spelling = some o := by cases o <;> rfl

theorem spelling_of_operator {arg : List UInt8} {o : Operator} (h : operator arg = some o) : o.spelling = arg := by
  rw [operator] at h
  repeat' split at h
  case isFalse.isFalse.isFalse.isFalse.isFalse => cases h
  all_goals
    obtain rfl := Option.some.inj h
    symm
    assumption

theorem token_spelling (w : Literal ⊕ Operator) : token (spelling w) = w := by
  rw [token]
  cases w with
  | inl s =>
    split
    · next o h => cases s.property.symm.trans h
    · rfl
  | inr o =>
    split
    · next o' h =>
      obtain rfl := Option.some.inj ((operator_spelling o).symm.trans h)
      rfl
    · next h => cases (operator_spelling o).symm.trans h

theorem spelling_token (arg : List UInt8) : spelling (token arg) = arg := by
  rw [token]
  split
  · next o h => exact spelling_of_operator h
  · rfl

/-! ## The stack -/

namespace Stack

/-- The values on the stack, the top in front. -/
def values (s : Stack) : List Int := ((List.range (s.stackPtr + 1).toNat).map s.stack).reverse

/-- The pointer is in the array, or in front of it. -/
def InArray (s : Stack) : Prop := -1 ≤ s.stackPtr ∧ s.stackPtr < kStackSize

variable {s s' : Stack} {v : Int} {vs : List Int}

theorem length_values : s.values.length = (s.stackPtr + 1).toNat := by
  rw [values, List.length_reverse, List.length_map, List.length_range]

theorem pop_spec (hs : s.InArray) : (s.values = [] ∧ s.pop = none) ∨
    ∃ v s', s.pop = some (v, s') ∧ s.values = v :: s'.values ∧ s'.InArray := by
  obtain ⟨hlow, hhigh⟩ := hs
  by_cases h : 0 ≤ s.stackPtr
  · right
    refine ⟨s.stack s.stackPtr.toNat, { s with stackPtr := s.stackPtr - 1 }, if_pos ⟨h, hhigh⟩, ?_, ?_⟩
    · have hsucc : (s.stackPtr + 1).toNat = s.stackPtr.toNat + 1 := by omega
      have hpred : (s.stackPtr - 1 + 1).toNat = s.stackPtr.toNat := by omega
      rw [values, values, hsucc, hpred, List.range_succ, List.map_append, List.reverse_append]
      rfl
    · exact ⟨by dsimp only; omega, by dsimp only; omega⟩
  · left
    refine ⟨?_, if_neg fun hc => h hc.1⟩
    rw [← List.length_eq_zero_iff, length_values]
    omega

theorem push_spec (hs : s.InArray) (v : Int) :
    (s.push v).map values = (if s.values.length < kStackSize then some (v :: s.values) else none) ∧
      ∀ s', s.push v = some s' → s'.InArray := by
  obtain ⟨hlow, hhigh⟩ := hs
  by_cases h : s.stackPtr + 1 < kStackSize
  · have hpush : s.push v = some ⟨s.stackPtr + 1, Function.update s.stack (s.stackPtr + 1).toNat v⟩ :=
      if_pos ⟨by omega, h⟩
    rw [hpush, Option.map_some, length_values, if_pos (by omega)]
    refine ⟨congrArg some ?_, fun s' hs' => ?_⟩
    · have hsucc : (s.stackPtr + 1 + 1).toNat = (s.stackPtr + 1).toNat + 1 := by omega
      have hkept : (List.range (s.stackPtr + 1).toNat).map (Function.update s.stack (s.stackPtr + 1).toNat v) =
          (List.range (s.stackPtr + 1).toNat).map s.stack :=
        List.map_congr_left fun i hi => Function.update_of_ne (List.mem_range.mp hi).ne _ _
      rw [values, values, hsucc, List.range_succ, List.map_append, List.reverse_append, hkept]
      exact congrArg (· :: _) (Function.update_self ..)
    · obtain rfl := Option.some.inj hs'
      exact ⟨by dsimp only; omega, h⟩
  · have hpush : s.push v = none := if_neg fun hc => h hc.2
    rw [hpush, length_values, if_neg (by omega)]
    exact ⟨rfl, fun _ hs' => nomatch hs'⟩

theorem operate_spec (hs : s.InArray) (o : Operator) :
    (s.operate o).map values = Postfix.step Literal.value Operator.apply kStackSize s.values (.inr o) ∧
      ∀ s', s.operate o = some s' → s'.InArray := by
  rw [operate]
  rcases pop_spec hs with ⟨hnil, hpop⟩ | ⟨b, s₁, hpop, hvalues, hs₁⟩
  · rw [hpop, hnil]
    exact ⟨rfl, fun _ h => nomatch h⟩
  rcases pop_spec hs₁ with ⟨hnil, hpop₁⟩ | ⟨a, s₂, hpop₁, hvalues₁, hs₂⟩
  · simp only [hpop, hpop₁, hvalues, hnil, Option.bind_eq_bind, Option.bind_some, Option.bind_none]
    exact ⟨rfl, fun _ h => nomatch h⟩
  simp only [hpop, hpop₁, hvalues, hvalues₁, Option.bind_eq_bind, Option.bind_some, Postfix.step]
  cases o.apply a b with
  | none => exact ⟨rfl, fun _ h => nomatch h⟩
  | some v =>
    obtain ⟨hmap, hin⟩ := push_spec hs₂ v
    -- two values were taken from the stack
    have hlen : s₂.values.length < kStackSize := by
      have h₀ := @length_values s
      have h₁ := hs.2
      rw [hvalues, hvalues₁, List.length_cons, List.length_cons] at h₀
      omega
    rw [if_pos hlen] at hmap
    exact ⟨hmap, hin⟩

/-- A turn of the loop is a step with the token of the argument. -/
theorem turn_spec (hs : s.InArray) (arg : List UInt8) :
    (s.turn arg).map values = Postfix.step Literal.value Operator.apply kStackSize s.values (token arg) ∧
      ∀ s', s.turn arg = some s' → s'.InArray := by
  obtain ⟨w, rfl⟩ : ∃ w, spelling w = arg := ⟨_, spelling_token arg⟩
  rw [token_spelling, turn]
  cases w with
  | inr o =>
    have ho : operator (spelling (.inr o)) = some o := operator_spelling o
    simp only [ho]
    exact operate_spec hs o
  | inl l =>
    have hl : operator (spelling (.inl l)) = none := l.property
    simp only [hl, Postfix.step]
    have hvalue : l.value = atol (spelling (.inl l)) := rfl
    rw [hvalue]
    cases atol (spelling (.inl l)) with
    | none => exact ⟨(ite_self _).symm, fun _ h => nomatch h⟩
    | some v => exact push_spec hs v

theorem run_spec (hs : s.InArray) (args : List (List UInt8)) :
    (args.foldlM turn s).map values =
        Postfix.run Literal.value Operator.apply kStackSize s.values (args.map token) ∧
      ∀ s', args.foldlM turn s = some s' → s'.InArray := by
  induction args generalizing s with
  | nil =>
    refine ⟨rfl, fun s' h => ?_⟩
    obtain rfl := Option.some.inj h
    exact hs
  | cons arg args ih =>
    obtain ⟨hmap, hin⟩ := turn_spec hs arg
    rw [List.foldlM_cons, List.map_cons, Postfix.run_cons, ← hmap]
    cases hturn : s.turn arg with
    | none => exact ⟨rfl, fun _ h => nomatch h⟩
    | some s₁ => exact ih (hin s₁ hturn)

end Stack

/-! ## What is computed -/

/-- The result of the program, with the value on the top of the stack. -/
def Outcome.of (value : Int) : Outcome := ⟨signed value ++ [newline], wrap32 value⟩

theorem main_eq (args : List (List UInt8)) : main args =
    (Postfix.run Literal.value Operator.apply kStackSize [] (args.map token)).map fun vs => .of (vs.headD 0) := by
  have hs : Stack.InArray ⟨-1, fun _ => 0⟩ := ⟨le_rfl, by decide⟩
  obtain ⟨hmap, hin⟩ := Stack.run_spec hs args
  rw [main, show Postfix.run Literal.value Operator.apply kStackSize [] (args.map token) = _ from hmap.symm]
  cases hrun : args.foldlM Stack.turn ⟨-1, fun _ => 0⟩ with
  | none => rfl
  | some s =>
    rw [Option.bind_eq_bind, Option.bind_some, Option.map_some, Option.map_some]
    rcases Stack.pop_spec (hin s hrun) with ⟨hnil, hpop⟩ | ⟨v, s', hpop, hvalues, -⟩
    · have hlen := @Stack.length_values s
      rw [hnil, List.length_nil] at hlen
      rw [if_neg (by omega), hnil]
      rfl
    · have hlen := @Stack.length_values s
      rw [hvalues, List.length_cons] at hlen
      rw [if_pos (by omega), hpop, hvalues]
      rfl

/-- The program has a result if and only if its arguments are the postfix notation of expressions, each with a value
and with room on the stack, and it prints the value of the last one, or 0. -/
theorem main_eq_some_iff (args : List (List UInt8)) (out : Outcome) : main args = some out ↔
    ∃ (es : List (Expr Literal Operator)) (vs : List Int), args = (es.reverse.flatMap Expr.tokens).map spelling ∧
      Postfix.Fits kStackSize es ∧ Postfix.Values Literal.value Operator.apply es vs ∧ out = .of (vs.headD 0) := by
  rw [main_eq, Option.map_eq_some_iff]
  constructor
  · rintro ⟨vs, hrun, rfl⟩
    obtain ⟨es, hargs, hfits, hvalues⟩ := Postfix.run_eq_some_iff.mp hrun
    refine ⟨es, vs, ?_, hfits, hvalues, rfl⟩
    rw [← hargs, List.map_map]
    exact (List.map_id'' spelling_token args).symm
  · rintro ⟨es, vs, rfl, hfits, hvalues, rfl⟩
    refine ⟨vs, Postfix.run_eq_some_iff.mpr ⟨es, ?_, hfits, hvalues⟩, rfl⟩
    rw [List.map_map]
    exact List.map_id'' token_spelling _

/-- `rpn 1 3 - 4 *`. -/
example : main [text "1", text "3", text "-", text "4", text "*"] = some ⟨text "-8\n", -8⟩ := by decide

end MikanOS.Rpn
