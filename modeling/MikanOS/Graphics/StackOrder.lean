import MikanOS.Graphics.LayerEvents

/-! # The height of a layer

`UpDown` against the stack without the layer that it moves. -/

namespace MikanOS

open LayerManager

section

variable {α : Type*} {l : List α} {a : α} {k : Nat} {p : α → Bool}

/-- The first element with a property that is inserted among elements without it. -/
theorem findIdx?_insertIdx (h : k ≤ l.length) (ha : p a = true) (hl : ∀ b ∈ l, p b = false) :
    (l.insertIdx k a).findIdx? p = some k := by
  have htake : (l.take k).findIdx? p = none :=
    List.findIdx?_eq_none_iff.mpr fun b hb => hl b (List.mem_of_mem_take hb)
  rw [insertIdx_eq_take_cons_drop h, List.findIdx?_append, htake, Option.none_or, List.findIdx?_cons, ha,
    if_pos rfl, Option.map_some, Nat.zero_add, List.length_take, Nat.min_eq_left h]

/-- Without the inserted element the list is what it was. -/
theorem filter_insertIdx (h : k ≤ l.length) (ha : p a = false) :
    (l.insertIdx k a).filter p = l.filter p := by
  rw [insertIdx_eq_take_cons_drop h, List.filter_append, List.filter_cons_of_neg (by rw [ha]; simp),
    ← List.filter_append, List.take_append_drop]

end

namespace LayerManager

variable {lm : LayerManager} {layer : Layer} {layerId : Nat} {newHeight : Int}

/-- The stack without a layer. -/
def others (lm : LayerManager) (layer : Layer) : List Nat := lm.layerStack.filter (· ≠ layer.address)

theorem Identified.erase_eq_others (I : Identified lm) (layer : Layer) :
    lm.layerStack.erase layer.address = lm.others layer := by
  rw [others, I.nodup.erase_eq_filter]
  refine List.filter_congr fun a _ => ?_
  rw [bne, Bool.beq_eq_decide_eq, decide_not]

/-- `UpDown` takes a layer out of the stack and inserts it at the new height, or on top of all others if these
are fewer; the others stay in order. -/
theorem upDown_reorders (I : Identified lm) (h : lm.findLayer layerId = some layer)
    (hnewHeight : 0 ≤ newHeight) :
    (lm.upDown layerId newHeight).layerStack =
        (lm.others layer).insertIdx (min newHeight.toNat (lm.others layer).length) layer.address ∧
      (lm.upDown layerId newHeight).getHeight layerId = min newHeight (lm.others layer).length ∧
      (lm.upDown layerId newHeight).others layer = lm.others layer := by
  have I' := I.upDown h hnewHeight
  have h' : (lm.upDown layerId newHeight).findLayer layerId = some layer := by
    rw [(find_congr (upDown_layers newHeight)).2.1]
    exact h
  have hstack := upDown_layerStack h hnewHeight
  rw [I.erase_eq_others] at hstack
  have hle := Nat.min_le_right newHeight.toNat (lm.others layer).length
  have hmem (a : Nat) (ha : a = layer.address ∨ a ∈ lm.others layer) :
      a ∈ (lm.upDown layerId newHeight).layerStack := by
    rw [hstack]
    exact (List.mem_insertIdx hle).mpr ha
  have hself : (lm.upDown layerId newHeight).hasId layerId layer.address = true :=
    (I'.hasId_iff h' (hmem _ (.inl rfl))).mpr rfl
  have hother (a : Nat) (ha : a ∈ lm.others layer) :
      (lm.upDown layerId newHeight).hasId layerId a = false := by
    rw [← Bool.not_eq_true, I'.hasId_iff h' (hmem _ (.inr ha))]
    simpa using (List.mem_filter.mp ha).2
  refine ⟨hstack, ?_, ?_⟩
  · rw [getHeight, hstack, findIdx?_insertIdx hle hself hother]
    show ((min newHeight.toNat (lm.others layer).length : Nat) : Int) = _
    omega
  · rw [others, hstack, filter_insertIdx hle (by simp), others, List.filter_filter]
    simp

/-- The console goes from the height 1 to the height 3, in the stack of the set-up. -/
theorem upDown_reorders_console : ∃ d, Layers.smallBoot = some d ∧ d.manager.layerStack = [1, 2, 3, 4, 5] ∧
    (d.manager.upDown 2 3).layerStack = [1, 3, 4, 2, 5] ∧ (d.manager.upDown 2 3).getHeight 2 = 3 := by
  have hspec : ∃ d, Layers.smallBoot = some d ∧ d.Stacked := boot_spec rfl rfl rfl rfl (by decide)
  obtain ⟨d, hboot, S⟩ := hspec
  have hlookup : (Layers.smallBoot.map fun d => (d.manager.layerStack, d.manager.findAddress 2,
      (d.manager.findLayer 2).isSome)) = some ([1, 2, 3, 4, 5], 2, true) := by decide +kernel
  rw [hboot, Option.map_some, Option.some.injEq, Prod.mk.injEq, Prod.mk.injEq] at hlookup
  obtain ⟨hstack, haddress, hsome⟩ := hlookup
  obtain ⟨layer, hlayer⟩ := Option.isSome_iff_exists.mp hsome
  rw [findAddress_of_find hlayer] at haddress
  have hothers : d.manager.others layer = [1, 3, 4, 5] := by
    rw [others, hstack, haddress]
    decide
  obtain ⟨hstack', hheight, -⟩ := upDown_reorders S.owned.identified hlayer (by decide : (0 : Int) ≤ 3)
  rw [hothers] at hstack' hheight
  rw [haddress] at hstack'
  exact ⟨d, hboot, hstack, hstack', hheight⟩

end LayerManager

end MikanOS
