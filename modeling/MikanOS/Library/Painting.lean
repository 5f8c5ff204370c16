import Mathlib.Data.List.Basic

/-! # Pictures on top of each other

A picture has a colour at some of the points and none at the others. A list of pictures is painted from its front
on, so that at each point the last picture with a colour is seen. -/

namespace Painting

variable {ι P C : Type*} {f g : ι → P → Option C} {l : List ι} {a : ι} {p : P}

/-- The colour that is seen. -/
def topmost (f : ι → P → Option C) (l : List ι) (p : P) : Option C := l.reverse.findSome? (f · p)

theorem topmost_append (below above : List ι) :
    topmost f (below ++ above) p = (topmost f above p).or (topmost f below p) := by
  rw [topmost, List.reverse_append, List.findSome?_append]
  rfl

theorem topmost_cons : topmost f (a :: l) p = (topmost f l p).or (f a p) := by
  have hone : topmost f [a] p = f a p := List.findSome?_singleton
  rw [← List.singleton_append, topmost_append, hone]

theorem topmost_congr (h : ∀ a ∈ l, f a p = g a p) : topmost f l p = topmost g l p := by
  induction l with
  | nil => rfl
  | cons a l ih =>
    rw [topmost_cons, topmost_cons, h a List.mem_cons_self, ih fun b hb => h b (List.mem_cons_of_mem _ hb)]

/-- A picture that has no colour at a point is not seen there. -/
theorem topmost_erase [DecidableEq ι] (h : f a p = none) : topmost f (l.erase a) p = topmost f l p := by
  induction l with
  | nil => rfl
  | cons b l ih =>
    by_cases hb : b = a
    · rw [hb, List.erase_cons_head, topmost_cons, h, Option.or_none]
    · rw [List.erase_cons_tail (by simpa using hb), topmost_cons, topmost_cons, ih]

/-- One picture after the other is painted over a colour. -/
theorem foldl_getD (c : C) : l.foldl (fun c a => (f a p).getD c) c = (topmost f l p).getD c := by
  induction l generalizing c with
  | nil => rfl
  | cons a l ih =>
    rw [List.foldl_cons, ih, topmost_cons]
    cases topmost f l p with
    | some c' => rfl
    | none => rfl

end Painting
