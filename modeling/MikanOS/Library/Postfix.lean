import Mathlib

/-! # Expressions in postfix notation

Expressions over leaves of a type `α` and operators of a type `β`, and a machine that reads tokens and keeps at most
`limit` values on a stack. The machine accepts a list of tokens if and only if it is the postfix notation of
expressions that have values and for which the stack is large enough. -/

namespace Postfix

inductive Expr (α β : Type*) where
  | leaf (a : α)
  | node (o : β) (e₁ e₂ : Expr α β)

variable {α β V : Type*}

/-- Each operator behind its operands. -/
def Expr.tokens : Expr α β → List (α ⊕ β)
  | leaf a => [.inl a]
  | node o e₁ e₂ => e₁.tokens ++ e₂.tokens ++ [.inr o]

/-- The values that are on the stack at a time. -/
def Expr.need : Expr α β → Nat
  | leaf _ => 1
  | node _ e₁ e₂ => max e₁.need (e₂.need + 1)

variable (lit : α → Option V) (op : β → V → V → Option V) (limit : Nat)

def Expr.value : Expr α β → Option V
  | leaf a => lit a
  | node o e₁ e₂ => do op o (← e₁.value) (← e₂.value)

/-- A token, with the top of the stack in front. -/
def step (vs : List V) : α ⊕ β → Option (List V)
  | .inl a => if vs.length < limit then (lit a).map (· :: vs) else none
  | .inr o =>
    match vs with
    | b :: a :: vs => (op o a b).map (· :: vs)
    | _ => none

def run (vs : List V) (ws : List (α ⊕ β)) : Option (List V) := ws.foldlM (step lit op limit) vs

/-- For each of the expressions, the last one in front, there is room above the values of those before it. -/
def Fits : List (Expr α β) → Prop
  | [] => True
  | e :: es => es.length + e.need ≤ limit ∧ Fits es

/-- The values of the expressions, as they are on the stack. -/
def Values (es : List (Expr α β)) (vs : List V) : Prop := List.Forall₂ (fun e v => e.value lit op = some v) es vs

variable {lit op limit} {es : List (Expr α β)} {vs : List V} {ws : List (α ⊕ β)}

theorem run_cons (w : α ⊕ β) : run lit op limit vs (w :: ws) =
    (step lit op limit vs w).bind fun vs => run lit op limit vs ws := List.foldlM_cons ..

theorem run_single (w : α ⊕ β) : run lit op limit vs [w] = step lit op limit vs w := by
  rw [run_cons]
  exact bind_pure (step lit op limit vs w)

theorem run_append (ws ws' : List (α ⊕ β)) : run lit op limit vs (ws ++ ws') =
    (run lit op limit vs ws).bind fun vs => run lit op limit vs ws' := List.foldlM_append ..

/-- An expression puts its value on the stack. -/
theorem run_tokens (e : Expr α β) (vs : List V) : run lit op limit vs e.tokens =
    if vs.length + e.need ≤ limit then (e.value lit op).map (· :: vs) else none := by
  induction e generalizing vs with
  | leaf a =>
    rw [Expr.tokens, run_single]
    rfl
  | node o e₁ e₂ ih₁ ih₂ =>
    rw [Expr.tokens, run_append, run_append, ih₁, Expr.need, Expr.value]
    by_cases h₁ : vs.length + e₁.need ≤ limit
    · rw [if_pos h₁]
      cases hv₁ : e₁.value lit op with
      | none => simp
      | some a =>
        rw [Option.map_some, Option.bind_some, ih₂, List.length_cons]
        by_cases h₂ : vs.length + 1 + e₂.need ≤ limit
        · rw [if_pos h₂, if_pos (by omega)]
          cases hv₂ : e₂.value lit op with
          | none => simp
          | some b =>
            rw [Option.map_some, Option.bind_some, run_single]
            rfl
        · rw [if_neg h₂, if_neg (by omega)]
          rfl
    · rw [if_neg h₁, if_neg (by omega)]
      rfl

/-- Expressions one after the other leave their values on the stack. -/
theorem run_of_values (hfits : Fits limit es) (h : Values lit op es vs) :
    run lit op limit [] (es.reverse.flatMap Expr.tokens) = some vs := by
  induction h with
  | nil => rfl
  | @cons e v es vs hv h ih =>
    obtain ⟨he, hes⟩ := hfits
    rw [List.reverse_cons, List.flatMap_append, run_append, ih hes, Option.bind_some, List.flatMap_singleton,
      run_tokens, if_pos (h.length_eq ▸ he), hv]
    rfl

/-- What the machine accepts is the postfix notation of expressions. -/
theorem exists_of_run (h : run lit op limit [] ws = some vs) :
    ∃ es, ws = es.reverse.flatMap Expr.tokens ∧ Fits limit es ∧ Values lit op es vs := by
  induction ws using List.reverseRecOn generalizing vs with
  | nil =>
    obtain rfl := Option.some.inj h
    exact ⟨[], rfl, trivial, .nil⟩
  | append_singleton ws w ih =>
    rw [run_append] at h
    obtain ⟨us, hus, hlast⟩ := Option.bind_eq_some_iff.mp h
    obtain ⟨es, rfl, hfits, hvalues⟩ := ih hus
    rw [run_single] at hlast
    cases w with
    | inl a =>
      obtain ⟨hlt, hlast⟩ := Option.ite_none_right_eq_some.mp hlast
      obtain ⟨v, hv, rfl⟩ := Option.map_eq_some_iff.mp hlast
      refine ⟨.leaf a :: es, ?_, ⟨hvalues.length_eq.symm ▸ hlt, hfits⟩, .cons hv hvalues⟩
      rw [List.reverse_cons, List.flatMap_append]
      rfl
    | inr o =>
      rcases us with _ | ⟨b, _ | ⟨a, us⟩⟩
      · cases hlast
      · cases hlast
      · obtain ⟨v, hv, rfl⟩ := Option.map_eq_some_iff.mp hlast
        rcases hvalues with _ | @⟨e₂, _, _, _, h₂, hvalues⟩
        rcases hvalues with _ | @⟨e₁, _, es, _, h₁, hvalues⟩
        obtain ⟨hfits₂, hfits₁, hfits⟩ := hfits
        refine ⟨.node o e₁ e₂ :: es, ?_, ⟨?_, hfits⟩, .cons ?_ hvalues⟩
        · simp [Expr.tokens]
        · rw [Expr.need]
          rw [List.length_cons] at hfits₂
          omega
        · rw [Expr.value, h₁, h₂]
          exact hv

/-- The machine accepts the postfix notation of expressions, and nothing else. -/
theorem run_eq_some_iff : run lit op limit [] ws = some vs ↔
    ∃ es, ws = es.reverse.flatMap Expr.tokens ∧ Fits limit es ∧ Values lit op es vs := by
  constructor
  · exact exists_of_run
  · rintro ⟨es, rfl, hfits, h⟩
    exact run_of_values hfits h

end Postfix
