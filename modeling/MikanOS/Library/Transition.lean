import Mathlib

/-! # Deterministic guarded transition systems

A system is one executable step function: `step s e` is the state after the event `e`, or `none`
where the guard of `e` fails in `s`. Runs are lists of events. The invariant rules of this file
are the only inductions over runs that the models built on it need. -/

namespace Transition

universe u v

/-- A guarded step function over states `σ` and events `ε`. -/
structure System (σ : Type u) (ε : Type v) where
  step : σ → ε → Option σ

/-- What holds of every element of a list, with the elements before it, and of one more after the list. -/
theorem forall_split_snoc {α : Type u} {P : List α → α → Prop} {l : List α} {a : α}
    (h : ∀ pre x post, l = pre ++ x :: post → P pre x) (ha : P l a) :
    ∀ pre x post, l ++ [a] = pre ++ x :: post → P pre x := by
  intro pre x post heq
  rcases List.eq_nil_or_concat post with rfl | ⟨post, last, rfl⟩
  · obtain ⟨rfl, hlast⟩ := List.append_inj' heq rfl
    obtain rfl := List.singleton_inj.mp hlast
    exact ha
  · rw [List.concat_eq_append, ← List.cons_append, ← List.append_assoc] at heq
    exact h pre x post (List.append_inj' heq rfl).1

namespace System

variable {σ : Type u} {ε : Type v} (M : System σ ε)

/-- `M.Run s es s'`: the events `es` lead from `s` to `s'`, each enabled when its turn comes. -/
inductive Run : σ → List ε → σ → Prop
  | nil : Run s [] s
  | cons : M.step s e = some s' → Run s' es s'' → Run s (e :: es) s''

/-- Some run leads from `s` to `s'`. -/
def Reachable (s s' : σ) : Prop := ∃ es, M.Run s es s'

/-- The state after the events `es`, if all of them are enabled. -/
def exec (s : σ) : List ε → Option σ
  | [] => some s
  | e :: es => (M.step s e).bind fun s' => exec s' es

variable {M}

theorem Run.append (h : M.Run s es s') (h' : M.Run s' es' s'') : M.Run s (es ++ es') s'' := by
  induction h with
  | nil => exact h'
  | cons hs _ ih => exact .cons hs (ih h')

theorem Run.single (h : M.step s e = some s') : M.Run s [e] s' := .cons h .nil

theorem Run.snoc (h : M.Run s es s') (hs : M.step s' e = some s'') :
    M.Run s (es ++ [e]) s'' := h.append (.single hs)

/-- The run invariant rule: what holds at first and survives each step holds at the end. -/
theorem Run.invariant {I : σ → Prop} (hstep : ∀ s e s', I s → M.step s e = some s' → I s')
    (h : M.Run s es s') (h0 : I s) : I s' := by
  induction h with
  | nil => exact h0
  | cons hs _ ih => exact ih (hstep _ _ _ h0 hs)

/-- The invariant rule for what depends on the events so far, too, in runs whose events all satisfy `P`
in the state they occur in. -/
theorem Run.invariant_history {I : List ε → σ → Prop} {P : σ → ε → Prop}
    (hstep : ∀ es t e t', I es t → P t e → M.step t e = some t' → I (es ++ [e]) t')
    (h : M.Run s es s') (h0 : I [] s)
    (hP : ∀ pre e post t, es = pre ++ e :: post → M.Run s pre t → P t e) : I es s' := by
  suffices H : ∀ pre, I pre s → I (pre ++ es) s' from H [] h0
  clear h0
  induction h with
  | nil =>
    intro pre hpre
    rwa [List.append_nil]
  | @cons s e t es s' hs _ ih =>
    intro pre hpre
    have := ih (fun pre' e' post t' he ht => hP (e :: pre') e' post t' (by rw [he]; rfl) (.cons hs ht))
      (pre ++ [e]) (hstep _ _ _ _ hpre (hP [] _ _ _ rfl .nil) hs)
    rwa [List.append_assoc] at this

/-- The invariant rule for runs whose events all satisfy `P` in the state they occur in. -/
theorem Run.invariant_of_forall {I : σ → Prop} {P : σ → ε → Prop}
    (hstep : ∀ s e s', I s → P s e → M.step s e = some s' → I s')
    (h : M.Run s es s') (h0 : I s)
    (hP : ∀ pre e post t, es = pre ++ e :: post → M.Run s pre t → P t e) : I s' :=
  h.invariant_history (I := fun _ => I) (fun _ => hstep) h0 hP

namespace Reachable

theorem refl : M.Reachable s s := ⟨[], .nil⟩

theorem tail (h : M.Reachable s s') (hs : M.step s' e = some s'') : M.Reachable s s'' := by
  obtain ⟨es, h⟩ := h
  exact ⟨_, h.snoc hs⟩

theorem trans (h : M.Reachable s s') (h' : M.Reachable s' s'') : M.Reachable s s'' := by
  obtain ⟨es, h⟩ := h
  obtain ⟨es', h'⟩ := h'
  exact ⟨_, h.append h'⟩

theorem invariant {I : σ → Prop} (hstep : ∀ s e s', I s → M.step s e = some s' → I s')
    (h : M.Reachable s s') (h0 : I s) : I s' := by
  obtain ⟨es, h⟩ := h
  exact h.invariant hstep h0

end Reachable

/-- `P` holds in every state of the run of `es` from `s`. -/
def Throughout (M : System σ ε) (P : σ → Prop) (s : σ) (es : List ε) : Prop :=
  ∀ pre post t, es = pre ++ post → M.Run s pre t → P t

namespace Throughout

variable {P : σ → Prop}

theorem head (h : M.Throughout P s es) : P s := h [] es s rfl .nil

theorem tail (h : M.Throughout P s (e :: es)) (hs : M.step s e = some s') : M.Throughout P s' es :=
  fun pre post t hes hrun => h (e :: pre) post t (by rw [hes]; rfl) (.cons hs hrun)

theorem last (h : M.Throughout P s es) (hrun : M.Run s es s') : P s' :=
  h es [] s' (List.append_nil es).symm hrun

theorem mono {Q : σ → Prop} (h : M.Throughout P s es) (hPQ : ∀ t, P t → Q t) :
    M.Throughout Q s es := fun pre post t hes hrun => hPQ t (h pre post t hes hrun)

theorem nil (h : P s) : M.Throughout P s [] := by
  intro pre post t hes hrun
  obtain ⟨rfl, -⟩ := List.append_eq_nil_iff.mp hes.symm
  cases hrun
  exact h

theorem cons (h : P s) (hs : M.step s e = some s') (h' : M.Throughout P s' es) :
    M.Throughout P s (e :: es) := by
  intro pre post t hes hrun
  cases hrun with
  | nil => exact h
  | @cons _ d u pre _ hd hrest =>
    obtain ⟨rfl, htail⟩ := List.cons.inj hes
    obtain rfl : s' = u := Option.some.inj (hs.symm.trans hd)
    exact h' pre post t htail hrest

end Throughout

theorem run_of_exec {es : List ε} (h : M.exec s es = some s') : M.Run s es s' := by
  induction es generalizing s with
  | nil => cases h; exact .nil
  | cons e es ih =>
    obtain ⟨t, ht, h⟩ := Option.bind_eq_some_iff.mp h
    exact .cons ht (ih h)

theorem exec_of_run {es : List ε} (h : M.Run s es s') : M.exec s es = some s' := by
  induction h with
  | nil => rfl
  | cons hs _ ih => rw [exec, hs, Option.bind_some, ih]

/-- A condition on all events of a run is one on the last event and on those before it. -/
theorem Run.forall_snoc {P : σ → ε → Prop} (h : M.Run s es t) (he : P t e)
    (hes : ∀ pre e' post t', es = pre ++ e' :: post → M.Run s pre t' → P t' e') :
    ∀ pre e' post t', es ++ [e] = pre ++ e' :: post → M.Run s pre t' → P t' e' := by
  intro pre e' post t' heq hrun
  refine forall_split_snoc (P := fun pre e' => ∀ t', M.Run s pre t' → P t' e') ?_ ?_
    pre e' post heq t' hrun
  · exact fun pre e' post hsplit t' => hes pre e' post t' hsplit
  · intro t' hrun'
    have ht : some t' = some t := (exec_of_run hrun').symm.trans (exec_of_run h)
    cases ht
    exact he

theorem reachable_of_exec {es : List ε} (h : M.exec s es = some s') : M.Reachable s s' :=
  ⟨es, run_of_exec h⟩

end System

end Transition
