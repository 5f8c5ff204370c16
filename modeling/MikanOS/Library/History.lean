import Mathlib

/-! # Properties of all beginnings of a history

Where each further call keeps a property exactly if it meets a condition, the property holds after every
beginning of a history exactly if all of its calls meet theirs. -/

namespace History

variable {γ : Type*} {Good : List γ → Prop} {Meets : List γ → γ → Prop} {calls : List γ}

theorem forall_prefix_iff (hnil : Good [])
    (hstep : ∀ before c, before ++ [c] <+: calls → Good before → (Good (before ++ [c]) ↔ Meets before c)) :
    (∀ before, before <+: calls → Good before) ↔ ∀ before c, before ++ [c] <+: calls → Meets before c := by
  constructor
  · intro h before c hbefore
    have hgood := h before ((List.prefix_append _ _).trans hbefore)
    exact (hstep before c hbefore hgood).mp (h _ hbefore)
  · intro h before hbefore
    induction before using List.reverseRecOn with
    | nil => exact hnil
    | append_singleton before c ih =>
      have hgood := ih ((List.prefix_append _ _).trans hbefore)
      exact (hstep before c hbefore hgood).mpr (h before c hbefore)

end History
