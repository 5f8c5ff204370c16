import Mathlib

/-! # What stateful programs do to their state

A program is a state transformer that may fail to return. `Along R` says that it only ever goes from a
state to one that `R` relates it to; for a preorder it is enough to know this of the parts of a program. -/

namespace Stateful

variable {σ α β : Type} {R : σ → σ → Prop}

/-- Where the program returns, `R` leads from the state before to the state after. -/
def Along (R : σ → σ → Prop) (x : StateT σ Option α) : Prop :=
  ∀ s a s', x.run s = some (a, s') → R s s'

/-- A program in two parts goes through a state in between. -/
theorem run_bind_eq_some {x : StateT σ Option α} {f : α → StateT σ Option β} {s s'' : σ} {b : β} :
    (x >>= f).run s = some (b, s'') ↔ ∃ a s', x.run s = some (a, s') ∧ (f a).run s' = some (b, s'') := by
  constructor
  · intro h
    obtain ⟨⟨a, s'⟩, hs, h⟩ := Option.bind_eq_some_iff.mp h
    exact ⟨a, s', hs, h⟩
  · rintro ⟨a, s', hs, h⟩
    exact Option.bind_eq_some_iff.mpr ⟨(a, s'), hs, h⟩

namespace Along

theorem pure [Std.Refl R] (a : α) : Along R (pure a : StateT σ Option α) := by
  intro s a' s' h
  cases h
  exact Std.Refl.refl s

theorem get [Std.Refl R] : Along R (MonadState.get : StateT σ Option σ) := by
  intro s a s' h
  cases h
  exact Std.Refl.refl s

theorem failure : Along R (failure : StateT σ Option α) := by
  intro s a s' h
  cases h

/-- A value from outside, if there is one. -/
theorem lift [Std.Refl R] (a : Option α) : Along R (liftM a : StateT σ Option α) := by
  intro s a' s' h
  cases a with
  | none => cases h
  | some a =>
    cases h
    exact Std.Refl.refl s

theorem modify {f : σ → σ} (hf : ∀ s, R s (f s)) : Along R (modify f : StateT σ Option PUnit) := by
  intro s a s' h
  cases h
  exact hf s

theorem bind [IsTrans σ R] {x : StateT σ Option α} {f : α → StateT σ Option β} (hx : Along R x)
    (hf : ∀ a, Along R (f a)) : Along R (x >>= f) := by
  intro s b s'' h
  obtain ⟨a, s', hs, h⟩ := run_bind_eq_some.mp h
  exact IsTrans.trans _ _ _ (hx s a s' hs) (hf a s' b s'' h)

theorem ite {c : Prop} [Decidable c] {x y : StateT σ Option α} (hx : Along R x) (hy : Along R y) :
    Along R (if c then x else y) := by
  split
  · exact hx
  · exact hy

end Along

end Stateful
