import MikanOS.Graphics.Layer
import MikanOS.Library.Transition

/-! # The layer stack

What stays true of `layer_stack_` while windows are opened, activated and closed. -/

namespace MikanOS

variable {lm lm' : LayerManager} {d d' : Desktop} {layer m : Layer} {layerId address : Nat}
  {area : Rectangle} {f : Layer → Layer}

/-! ## The operations -/

namespace LayerManager

theorem findLayer_mem (h : lm.findLayer layerId = some layer) : layer ∈ lm.layers ∧ layer.id = layerId :=
  ⟨List.mem_of_find?_eq_some h, by simpa using List.find?_some h⟩

theorem deref_mem (h : lm.deref address = some layer) :
    layer ∈ lm.layers ∧ layer.address = address :=
  ⟨List.mem_of_find?_eq_some h, by simpa using List.find?_some h⟩

theorem findAddress_of_find (h : lm.findLayer layerId = some layer) :
    lm.findAddress layerId = layer.address := by
  rw [findAddress, h]
  rfl

@[simp] theorem display_layers (back : FrameBuffer) : (lm.display area back).layers = lm.layers := rfl
@[simp] theorem display_layerStack (back : FrameBuffer) :
    (lm.display area back).layerStack = lm.layerStack := rfl
@[simp] theorem draw_layers : (lm.draw area).layers = lm.layers := rfl
@[simp] theorem draw_layerStack : (lm.draw area).layerStack = lm.layerStack := rfl
@[simp] theorem modify_layerStack : (lm.modify address f).layerStack = lm.layerStack := rfl
@[simp] theorem hide_layers : (lm.hide layerId).layers = lm.layers := rfl
@[simp] theorem hide_layerStack :
    (lm.hide layerId).layerStack = lm.layerStack.erase (lm.findAddress layerId) := rfl

@[simp] theorem upDown_layers (newHeight : Int) : (lm.upDown layerId newHeight).layers = lm.layers := by
  simp only [upDown]
  split
  · rfl
  · split <;> rfl

@[simp] theorem upDown_latestId (newHeight : Int) :
    (lm.upDown layerId newHeight).latestId = lm.latestId := by
  simp only [upDown]
  split
  · rfl
  · split <;> rfl

/-- `UpDown` inserts the layer among the other ones. Behind the erased layer the places have moved by one, so
that the end of the old stack is no longer a place. -/
theorem upDown_layerStack (h : lm.findLayer layerId = some layer) {newHeight : Int}
    (hnewHeight : 0 ≤ newHeight) : (lm.upDown layerId newHeight).layerStack =
      (lm.layerStack.erase layer.address).insertIdx
        (min newHeight.toNat (lm.layerStack.erase layer.address).length) layer.address := by
  rw [upDown, if_neg (not_lt.mpr hnewHeight), findAddress_of_find h]
  by_cases hmem : layer.address ∈ lm.layerStack
  · have hpos := List.length_pos_of_mem hmem
    have hplace : (if min newHeight.toNat lm.layerStack.length = lm.layerStack.length then
        min newHeight.toNat lm.layerStack.length - 1 else min newHeight.toNat lm.layerStack.length) =
          min newHeight.toNat (lm.layerStack.length - 1) := by
      split <;> omega
    rw [if_pos hmem, List.length_erase_of_mem hmem, ← hplace]
  · rw [if_neg hmem, List.erase_of_not_mem hmem]

/-- The lookups depend on the layers only. -/
theorem find_congr (h : lm'.layers = lm.layers) : lm'.deref = lm.deref ∧
    lm'.findLayer = lm.findLayer ∧ lm'.findAddress = lm.findAddress ∧ lm'.hasId = lm.hasId := by
  have hd : lm'.deref = lm.deref := by
    funext a
    rw [deref, deref, h]
  have hf : lm'.findLayer = lm.findLayer := by
    funext i
    rw [findLayer, findLayer, h]
  refine ⟨hd, hf, ?_, ?_⟩
  · funext i
    rw [findAddress, findAddress, hf]
  · funext i a
    rw [hasId, hasId, hd]

/-- Layers keep their addresses and IDs. -/
def Keeps (f : Layer → Layer) : Prop := ∀ layer, (f layer).address = layer.address ∧
  (f layer).id = layer.id ∧ (layer.window.isSome → (f layer).window.isSome)

theorem find_modify (hf : Keeps f) (a : Nat) : (lm.modify address f).deref a =
      (lm.deref a).map (fun layer => if layer.address = address then f layer else layer) ∧
    (lm.modify address f).findLayer a =
      (lm.findLayer a).map fun layer => if layer.address = address then f layer else layer := by
  constructor
  · rw [deref, deref, modify, List.find?_map]
    refine congrArg (Option.map _) (congrArg (List.find? · lm.layers) (funext fun layer => ?_))
    simp only [Function.comp_apply]
    split
    · rw [(hf layer).1]
    · rfl
  · rw [findLayer, findLayer, modify, List.find?_map]
    refine congrArg (Option.map _) (congrArg (List.find? · lm.layers) (funext fun layer => ?_))
    simp only [Function.comp_apply]
    split
    · rw [(hf layer).2.1]
    · rfl

/-- The IDs in use. -/
def ids (lm : LayerManager) : List Nat := lm.layers.map Layer.id

theorem isSome_findLayer : (lm.findLayer layerId).isSome ↔ layerId ∈ lm.ids := by
  rw [findLayer, List.find?_isSome, ids, List.mem_map]
  simp

theorem findLayer_eq_none : lm.findLayer layerId = none ↔ layerId ∉ lm.ids := by
  rw [← isSome_findLayer, Bool.not_eq_true, Option.isSome_eq_false_iff, Option.isNone_iff_eq_none]

theorem ids_modify (hf : Keeps f) : (lm.modify address f).ids = lm.ids := by
  rw [ids, modify, List.map_map]
  refine List.map_congr_left fun layer _ => ?_
  simp only [Function.comp_apply]
  split
  · exact (hf layer).2.1
  · rfl

theorem drawAll_layers (h : lm.drawAll layerId = some lm') : lm'.layers = lm.layers := by
  rw [drawAll, drawLayer] at h
  split at h
  · cases h
    rfl
  · simp only [Option.bind_eq_bind, Option.bind_eq_some_iff] at h
    obtain ⟨layer, -, win, -, h⟩ := h
    cases h
    rfl

theorem ids_moveBy {newPos : Vector2D → Vector2D} (h : lm.moveBy layerId newPos = some lm') :
    lm'.ids = lm.ids := by
  simp only [moveBy, Option.bind_eq_bind, Option.bind_eq_some_iff] at h
  obtain ⟨layer, -, win, -, h⟩ := h
  have hkeeps : Keeps fun layer => { layer with pos := newPos layer.pos } :=
    fun _ => ⟨rfl, rfl, fun hw => hw⟩
  rw [ids, drawAll_layers h, draw_layers, ← ids, ids_modify hkeeps]

end LayerManager

open LayerManager

/-! ## The invariant of the layers -/

/-- The layers have addresses of their own, and the stack holds some of them, each once and each the one that
is found by its ID. -/
structure LayerManager.Identified (lm : LayerManager) : Prop where
  addresses : (lm.layers.map Layer.address).Nodup
  nodup : lm.layerStack.Nodup
  owned : ∀ address ∈ lm.layerStack,
    ∃ layer, lm.deref address = some layer ∧ lm.findLayer layer.id = some layer

namespace LayerManager.Identified

theorem deref_address (I : Identified lm) (h : layer ∈ lm.layers) :
    lm.deref layer.address = some layer := by
  cases hd : lm.deref layer.address with
  | none =>
    have := List.find?_eq_none.mp hd layer h
    simp at this
  | some layer' =>
    obtain ⟨hmem, haddr⟩ := deref_mem hd
    rw [List.inj_on_of_nodup_map I.addresses hmem h haddr]

/-- In the stack a layer is known by its ID. -/
theorem hasId_iff (I : Identified lm) (h : lm.findLayer layerId = some layer) (ha : address ∈ lm.layerStack) :
    lm.hasId layerId address = true ↔ address = layer.address := by
  obtain ⟨layer', hd, hf⟩ := I.owned address ha
  have haddr := (deref_mem hd).2
  rw [hasId, hd, Option.any_some, decide_eq_true_eq]
  constructor
  · intro hid
    rw [hid, h] at hf
    cases hf
    exact haddr.symm
  · intro hladdr
    rw [hladdr, I.deref_address (findLayer_mem h).1] at hd
    cases hd
    exact (findLayer_mem h).2

/-- A stack with other elements. -/
theorem restack (I : Identified lm) (hlayers : lm'.layers = lm.layers) (hnodup : lm'.layerStack.Nodup)
    (hmem : ∀ a ∈ lm'.layerStack, a ∈ lm.layerStack ∨ ∃ layerId layer, lm.findLayer layerId = some layer ∧
      a = layer.address) : Identified lm' := by
  obtain ⟨hd, hf, -⟩ := find_congr hlayers
  refine ⟨hlayers ▸ I.addresses, hnodup, fun a ha => ?_⟩
  rw [hd, hf]
  rcases hmem a ha with ha | ⟨layerId, layer, hfind, rfl⟩
  · exact I.owned a ha
  · obtain ⟨hmem, hid⟩ := findLayer_mem hfind
    exact ⟨layer, I.deref_address hmem, by rw [hid]; exact hfind⟩

/-- `UpDown` to any height. -/
theorem upDown (I : Identified lm) (h : lm.findLayer layerId = some layer) {newHeight : Int}
    (hnewHeight : 0 ≤ newHeight) : Identified (lm.upDown layerId newHeight) := by
  refine I.restack (upDown_layers _) ?_ fun a ha => ?_
  all_goals
    rw [upDown_layerStack h hnewHeight] at *
  · refine (List.perm_insertIdx _ _ (Nat.min_le_right ..)).nodup_iff.mpr ?_
    exact .cons I.nodup.not_mem_erase (I.nodup.erase _)
  · rcases List.eq_or_mem_of_mem_insertIdx ha with rfl | ha
    · exact .inr ⟨layerId, layer, h, rfl⟩
    · exact .inl (List.mem_of_mem_erase ha)

end LayerManager.Identified

/-- The layers are distinct and have windows, and the stack holds some of them, each of which is the one
that is found by its ID. -/
structure LayerManager.Owned (lm : LayerManager) : Prop where
  addresses : (lm.layers.map Layer.address).Nodup
  nonzero : ∀ layer ∈ lm.layers, layer.address ≠ 0
  windows : ∀ layer ∈ lm.layers, layer.window.isSome
  nodup : lm.layerStack.Nodup
  owned : ∀ address ∈ lm.layerStack,
    ∃ layer, lm.deref address = some layer ∧ lm.findLayer layer.id = some layer

namespace LayerManager.Owned

theorem identified (O : Owned lm) : Identified lm := ⟨O.addresses, O.nodup, O.owned⟩

theorem deref_address (O : Owned lm) (h : layer ∈ lm.layers) :
    lm.deref layer.address = some layer := O.identified.deref_address h

theorem eq_of_address (O : Owned lm) (h : layer ∈ lm.layers) (hm : m ∈ lm.layers)
    (heq : m.address = layer.address) : m = layer := List.inj_on_of_nodup_map O.addresses hm h heq

theorem address_ne (O : Owned lm) (h : lm.findLayer layerId = some layer) {mouse : Nat}
    (hm : lm.findLayer mouse = some m) (hne : layerId ≠ mouse) : layer.address ≠ m.address := by
  intro heq
  obtain rfl := O.eq_of_address (findLayer_mem hm).1 (findLayer_mem h).1 heq
  exact hne ((findLayer_mem h).2.symm.trans (findLayer_mem hm).2)

/-- The layer on top of the stack is not a second time in it. -/
theorem top_notMem (O : Owned lm) {rest : List Nat} (hstack : lm.layerStack = rest ++ [address]) :
    address ∉ rest := by
  have hnodup := O.nodup
  rw [hstack, ← List.concat_eq_append, List.nodup_concat] at hnodup
  exact hnodup.1

theorem hasId_iff (O : Owned lm) (h : lm.findLayer layerId = some layer) (ha : address ∈ lm.layerStack) :
    lm.hasId layerId address = true ↔ address = layer.address := O.identified.hasId_iff h ha

/-- `Draw` of a layer draws something, and the layers stay. -/
theorem drawAll_spec (O : Owned lm) (layerId : Nat) :
    ∃ area back, lm.drawAll layerId = some (lm.display area back) := by
  rw [drawAll, drawLayer]
  cases hdrop : lm.layerStack.dropWhile fun address => !lm.hasId layerId address with
  | nil => exact ⟨_, _, rfl⟩
  | cons address above =>
    have ha : address ∈ lm.layerStack :=
      (List.dropWhile_sublist _).subset (hdrop ▸ List.mem_cons_self)
    obtain ⟨layer, hd, -⟩ := O.owned address ha
    obtain ⟨win, hwin⟩ := Option.isSome_iff_exists.mp (O.windows layer (deref_mem hd).1)
    simp only [hd, hwin, Option.bind_eq_bind, Option.bind_some]
    exact ⟨_, _, rfl⟩

/-- The same layers with another stack. -/
theorem restack (O : Owned lm) (hlayers : lm'.layers = lm.layers) (I : Identified lm') : Owned lm' := by
  refine ⟨I.addresses, ?_, ?_, I.nodup, I.owned⟩
  · rw [hlayers]
    exact O.nonzero
  · rw [hlayers]
    exact O.windows

theorem congr (O : Owned lm) (hlayers : lm'.layers = lm.layers)
    (hstack : lm'.layerStack = lm.layerStack) : Owned lm' :=
  O.restack hlayers <| O.identified.restack hlayers (hstack ▸ O.nodup) fun _ ha => .inl (hstack ▸ ha)

theorem modify (O : Owned lm) (address : Nat) (hf : Keeps f) : Owned (lm.modify address f) := by
  refine ⟨?_, fun layer h => ?_, fun layer h => ?_, O.nodup, fun a ha => ?_⟩
  · have hmap : (lm.modify address f).layers.map Layer.address = lm.layers.map Layer.address := by
      rw [LayerManager.modify, List.map_map]
      refine List.map_congr_left fun layer _ => ?_
      simp only [Function.comp_apply]
      split
      · exact (hf layer).1
      · rfl
    rw [hmap]
    exact O.addresses
  · obtain ⟨layer', hmem, rfl⟩ := List.mem_map.mp h
    split
    · rw [(hf layer').1]
      exact O.nonzero layer' hmem
    · exact O.nonzero layer' hmem
  · obtain ⟨layer', hmem, rfl⟩ := List.mem_map.mp h
    split
    · exact (hf layer').2.2 (O.windows layer' hmem)
    · exact O.windows layer' hmem
  · obtain ⟨layer, hd, hfind⟩ := O.owned a ha
    refine ⟨if layer.address = address then f layer else layer, ?_, ?_⟩
    · rw [(find_modify hf a).1, hd]
      rfl
    · have hid : (if layer.address = address then f layer else layer).id = layer.id := by
        split
        · exact (hf layer).2.1
        · rfl
      rw [hid, (find_modify hf layer.id).2, hfind]
      rfl

/-- A new layer is the last one. -/
theorem openLayer_layers (hfresh : lm.deref address = none) (win : LayerWindow) (pos : Vector2D)
    (draggable : Bool) : (lm.openLayer address win pos draggable).layers =
      lm.layers ++ [⟨address, (lm.latestId + 1) % 2 ^ 32, pos, some win, draggable⟩] := by
  simp only [LayerManager.openLayer, LayerManager.modify, newLayer, List.map_append,
    List.map_singleton, if_true]
  refine congrArg (· ++ _) ((List.map_congr_left fun l hl => ?_).trans (List.map_id' _))
  rw [if_neg]
  simpa using List.find?_eq_none.mp hfresh l hl

/-- The layers there were are found as before. -/
theorem find_openLayer {p : Layer → Bool} (hfresh : lm.deref address = none) (win : LayerWindow)
    (pos : Vector2D) (draggable : Bool) (h : lm.layers.find? p = some layer) :
    (lm.openLayer address win pos draggable).layers.find? p = some layer := by
  rw [openLayer_layers hfresh, List.find?_append, h, Option.some_or]

theorem openLayer (O : Owned lm) (h0 : address ≠ 0) (hfresh : lm.deref address = none)
    (win : LayerWindow) (pos : Vector2D) (draggable : Bool) :
    Owned (lm.openLayer address win pos draggable) := by
  have hlayers := openLayer_layers hfresh win pos draggable
  refine ⟨?_, fun l hl => ?_, fun l hl => ?_, O.nodup, fun a ha => ?_⟩
  · rw [hlayers, List.map_append, List.map_singleton, List.nodup_append]
    refine ⟨O.addresses, List.nodup_singleton _, fun a ha b hb hab => ?_⟩
    obtain ⟨l, hl, rfl⟩ := List.mem_map.mp ha
    rw [List.mem_singleton.mp hb] at hab
    have hne : l.address ≠ address := by simpa using List.find?_eq_none.mp hfresh l hl
    exact hne hab
  · rw [hlayers, List.mem_append, List.mem_singleton] at hl
    rcases hl with hl | rfl
    · exact O.nonzero l hl
    · exact h0
  · rw [hlayers, List.mem_append, List.mem_singleton] at hl
    rcases hl with hl | rfl
    · exact O.windows l hl
    · rfl
  · obtain ⟨l, hd, hf⟩ := O.owned a ha
    exact ⟨l, find_openLayer hfresh win pos draggable hd, find_openLayer hfresh win pos draggable hf⟩

/-- What was found and is not removed is still found. -/
theorem find_removeLayer {p : Layer → Bool} (hp : lm.layers.find? p = some layer)
    (hid : layer.id ≠ layerId) : (lm.removeLayer layerId).layers.find? p = some layer := by
  obtain ⟨hpl, before, after, hlayers, hbefore⟩ := List.find?_eq_some_iff_append.mp hp
  rw [LayerManager.removeLayer, List.find?_filter, hide_layers, List.find?_eq_some_iff_append]
  refine ⟨by simp [hid, hpl], before, after, hlayers, fun x hx => ?_⟩
  simp only [Bool.not_eq_true', decide_eq_false_iff_not, not_and]
  intro _
  simpa using hbefore x hx

theorem removeLayer (O : Owned lm) (h : lm.findLayer layerId = some layer) :
    Owned (lm.removeLayer layerId) := by
  have hsub : (lm.removeLayer layerId).layers.Sublist lm.layers := List.filter_sublist
  refine ⟨(hsub.map _).nodup O.addresses, fun l hl => O.nonzero l (hsub.subset hl),
    fun l hl => O.windows l (hsub.subset hl), O.nodup.sublist (List.erase_sublist ..), fun a ha => ?_⟩
  simp only [LayerManager.removeLayer, hide_layerStack, findAddress_of_find h] at ha
  obtain ⟨hne, ha⟩ := (List.Nodup.mem_erase_iff O.nodup).mp ha
  obtain ⟨l, hd, hf⟩ := O.owned a ha
  have hid : l.id ≠ layerId := by
    intro hid
    rw [hid, h] at hf
    cases hf
    exact hne (deref_mem hd).2.symm
  exact ⟨l, find_removeLayer hd hid, find_removeLayer hf hid⟩

theorem upDown (O : Owned lm) (h : lm.findLayer layerId = some layer) {newHeight : Int}
    (hnewHeight : 0 ≤ newHeight) : Owned (lm.upDown layerId newHeight) :=
  O.restack (upDown_layers _) (O.identified.upDown h hnewHeight)

/-- `Move` and `MoveRelative` of a layer. -/
theorem moveBy_spec (O : Owned lm) (h : lm.findLayer layerId = some layer)
    (newPos : Vector2D → Vector2D) : ∃ f, Keeps f ∧ ∃ area area' back,
      lm.moveBy layerId newPos = some (((lm.modify layer.address f).draw area).display area' back) := by
  obtain ⟨win, hwin⟩ := Option.isSome_iff_exists.mp (O.windows layer (findLayer_mem h).1)
  have hkeeps : Keeps fun layer => { layer with pos := newPos layer.pos } :=
    fun _ => ⟨rfl, rfl, fun hw => hw⟩
  have O' : Owned ((lm.modify layer.address fun layer => { layer with pos := newPos layer.pos }).draw
    ⟨layer.pos, win.size⟩) := (O.modify layer.address hkeeps).congr rfl rfl
  obtain ⟨area', back, hdraw⟩ := O'.drawAll_spec layerId
  refine ⟨_, hkeeps, ⟨layer.pos, win.size⟩, area', back, ?_⟩
  rw [LayerManager.moveBy, h]
  simp only [hwin, Option.bind_eq_bind, Option.bind_some]
  exact hdraw

end LayerManager.Owned

/-! ## Raising a layer -/

theorem insertIdx_eq_take_cons_drop {α : Type*} {l : List α} {k : Nat} (h : k ≤ l.length) (a : α) :
    l.insertIdx k a = l.take k ++ a :: l.drop k := by
  induction l generalizing k with
  | nil =>
    obtain rfl := Nat.le_zero.mp h
    rfl
  | cons b l ih =>
    cases k with
    | zero => rfl
    | succ k =>
      rw [List.insertIdx_succ_cons, ih (Nat.le_of_succ_le_succ h)]
      rfl

namespace LayerManager

/-- A layer goes to the bottom, whether it was in the stack or not. -/
theorem upDown_zero (h : lm.findLayer layerId = some layer) :
    (lm.upDown layerId 0).layerStack = layer.address :: lm.layerStack.erase layer.address := by
  rw [upDown_layerStack h (le_refl 0), Int.toNat_zero, Nat.zero_min, List.insertIdx_zero]

/-- A layer goes to the top. -/
theorem upDown_max (h : lm.findLayer layerId = some layer) {newHeight : Int}
    (hmax : (lm.layerStack.length : Int) ≤ newHeight) (hnot : layer.address ∉ lm.layerStack) :
    (lm.upDown layerId newHeight).layerStack = lm.layerStack ++ [layer.address] := by
  rw [upDown_layerStack h (by omega), List.erase_of_not_mem hnot,
    min_eq_right (by omega : lm.layerStack.length ≤ newHeight.toNat), List.insertIdx_length_self]

theorem getHeight_of_top (O : Owned lm) (h : lm.findLayer layerId = some m) {rest : List Nat}
    (hstack : lm.layerStack = rest ++ [m.address]) : lm.getHeight layerId = rest.length := by
  have hnot (a : Nat) (ha : a ∈ rest) : lm.hasId layerId a = false := by
    rw [← Bool.not_eq_true, O.hasId_iff h (hstack ▸ List.mem_append_left _ ha)]
    rintro rfl
    exact O.top_notMem hstack ha
  have htop : lm.hasId layerId m.address = true :=
    (O.hasId_iff h (hstack ▸ List.mem_append_right _ (List.mem_singleton_self _))).mpr rfl
  have hidx : lm.layerStack.findIdx? (lm.hasId layerId) = some rest.length := by
    rw [hstack, List.findIdx?_append, List.findIdx?_eq_none_iff.mpr hnot]
    simp [htop]
  rw [getHeight, hidx]

theorem erase_concat_of_ne {a b : Nat} (h : a ≠ b) (l : List Nat) : (l ++ [b]).erase a = l.erase a ++ [b] := by
  rw [List.erase_append]
  split
  · rfl
  · rename_i hmem
    rw [List.erase_of_not_mem hmem, List.erase_of_not_mem]
    simpa using h

/-- The calls of `UpDown` in `Activate`: the layer goes to the place below the mouse layer. -/
theorem raise_spec (O : Owned lm) (h : lm.findLayer layerId = some layer) {mouse : Nat}
    (hmouse : lm.findLayer mouse = some m) {rest : List Nat}
    (hstack : lm.layerStack.erase layer.address = rest ++ [m.address]) :
    (lm.raise layerId mouse).layerStack = rest ++ [layer.address, m.address] ∧
      (lm.raise layerId mouse).layers = lm.layers ∧ Owned (lm.raise layerId mouse) := by
  generalize hlm₀ : lm.upDown layerId 0 = lm₀
  have hlayers₀ : lm₀.layers = lm.layers := hlm₀ ▸ upDown_layers 0
  have hlayers₁ : (lm.raise layerId mouse).layers = lm.layers := by
    rw [raise, hlm₀]
    exact (upDown_layers _).trans hlayers₀
  obtain ⟨-, hfind₀, -⟩ := find_congr hlayers₀
  have hstack₀ : lm₀.layerStack = (layer.address :: rest) ++ [m.address] := by
    rw [← hlm₀, upDown_zero h, hstack, List.cons_append]
  have O₀ : Owned lm₀ := hlm₀ ▸ O.upDown h (le_refl 0)
  have hlayer₀ : lm₀.findLayer layerId = some layer := by
    rw [hfind₀]
    exact h
  have hheight : lm₀.getHeight mouse - 1 = rest.length := by
    rw [getHeight_of_top O₀ (by rw [hfind₀]; exact hmouse) hstack₀, List.length_cons]
    omega
  have hstack₁ : (lm.raise layerId mouse).layerStack = rest ++ [layer.address, m.address] := by
    have herase : lm₀.layerStack.erase layer.address = rest ++ [m.address] := by
      rw [hstack₀, List.cons_append, List.erase_cons_head]
    have hle : rest.length ≤ (rest ++ [m.address]).length := by
      rw [List.length_append]
      exact Nat.le_add_right _ _
    rw [raise, hlm₀, hheight, upDown_layerStack hlayer₀ (Int.natCast_nonneg _), herase, Int.toNat_natCast,
      min_eq_left hle, insertIdx_eq_take_cons_drop hle, List.take_left, List.drop_left]
  refine ⟨hstack₁, hlayers₁, ?_⟩
  rw [raise, hlm₀, hheight]
  exact O₀.upDown hlayer₀ (Int.natCast_nonneg _)

end LayerManager

/-! ## Activating and closing -/

theorem keeps_setActive (active : Bool) (win : LayerWindow) :
    Keeps fun layer => { layer with window := some (win.setActive active) } :=
  fun _ => ⟨rfl, rfl, fun _ => rfl⟩

/-- What drawing the title of a layer changes: its window. -/
theorem redraw_spec (O : Owned d.manager) (h : d.manager.findLayer layerId = some layer) (active : Bool)
    (raise : LayerManager → LayerManager)
    (hraise : ∀ lm, Owned lm → (∃ f, Keeps f ∧ lm = d.manager.modify layer.address f) →
      Owned (raise lm)) :
    ∃ f, Keeps f ∧ ∃ area back, d.redraw layerId active raise =
      some ((raise (d.manager.modify layer.address f)).display area back) := by
  obtain ⟨win, hwin⟩ := Option.isSome_iff_exists.mp (O.windows layer (findLayer_mem h).1)
  have hkeeps := keeps_setActive active win
  refine ⟨_, hkeeps, ?_⟩
  obtain ⟨area, back, hdraw⟩ :=
    (hraise _ (O.modify layer.address hkeeps) ⟨_, hkeeps, rfl⟩).drawAll_spec layerId
  refine ⟨area, back, ?_⟩
  rw [Desktop.redraw, h]
  simp only [hwin, Option.bind_eq_bind, Option.bind_some]
  exact hdraw

/-- The layers are well-formed, the mouse layer is on top, and the active layer lies below it. -/
structure Desktop.Stacked (d : Desktop) : Prop where
  owned : Owned d.manager
  mouse : ∃ m rest, d.manager.findLayer d.mouseLayer = some m ∧
    d.manager.layerStack = rest ++ [m.address]
  active : d.activeLayer ≠ 0 → ∃ layer m rest, d.manager.findLayer d.activeLayer = some layer ∧
    d.manager.findLayer d.mouseLayer = some m ∧
    d.manager.layerStack = rest ++ [layer.address, m.address]

namespace Desktop

theorem Stacked.of_mouse (O : Owned d.manager) (hm : d.manager.findLayer d.mouseLayer = some m)
    {rest : List Nat} (hstack : d.manager.layerStack = rest ++ [m.address])
    (hactive : d.activeLayer = 0) : Stacked d :=
  ⟨O, ⟨m, rest, hm, hstack⟩, fun h => absurd hactive h⟩

/-- The first part of `Activate`. -/
theorem deactivate_spec (S : Stacked d) : ∃ lm, d.deactivate = some lm ∧ Owned lm ∧
    lm.layerStack = d.manager.layerStack ∧ ∀ i layer, d.manager.findLayer i = some layer →
      ∃ layer', lm.findLayer i = some layer' ∧ layer'.address = layer.address := by
  rw [deactivate]
  by_cases hpos : 0 < d.activeLayer
  · obtain ⟨layer, m, rest, hfind, -⟩ := S.active hpos.ne'
    obtain ⟨f, hf, area, back, hredraw⟩ := redraw_spec S.owned hfind false id fun _ O _ => O
    refine ⟨_, (if_pos hpos).trans hredraw, (S.owned.modify layer.address hf).congr rfl rfl, rfl, fun i l hl => ?_⟩
    refine ⟨if l.address = layer.address then f l else l, ?_, ?_⟩
    · exact (find_modify hf i).2.trans (by rw [hl]; rfl)
    · split
      · exact (hf l).1
      · rfl
  · exact ⟨_, if_neg hpos, S.owned, rfl, fun i l hl => ⟨l, hl, rfl⟩⟩

theorem activate_zero (S : Stacked d) : ∃ lm, d.activate 0 = some ⟨lm, 0, d.mouseLayer⟩ ∧
    Stacked ⟨lm, 0, d.mouseLayer⟩ ∧ lm.layerStack = d.manager.layerStack ∧
      ∀ i layer, d.manager.findLayer i = some layer →
        ∃ layer', lm.findLayer i = some layer' ∧ layer'.address = layer.address := by
  obtain ⟨m, rest, hm, hstack⟩ := S.mouse
  by_cases h0 : d.activeLayer = 0
  · refine ⟨d.manager, ?_, .of_mouse S.owned hm hstack rfl, rfl, fun i l hl => ⟨l, hl, rfl⟩⟩
    rw [activate, if_pos h0, ← h0]
  · obtain ⟨lm, hlm, O, hsame, hfind⟩ := deactivate_spec S
    obtain ⟨m', hm', haddr⟩ := hfind _ _ hm
    refine ⟨lm, ?_, .of_mouse O hm' (by rw [hsame, haddr]; exact hstack) rfl, hsame, hfind⟩
    rw [activate, if_neg h0, hlm]
    rfl

/-- `Activate` of a layer: it goes below the mouse layer, and the others stay in order. -/
theorem activate_spec (S : Stacked d) (hid : layerId ≠ 0) (hne : layerId ≠ d.mouseLayer)
    (h : d.manager.findLayer layerId = some layer) : ∃ d', d.activate layerId = some d' ∧ Stacked d' ∧
      d'.mouseLayer = d.mouseLayer ∧
      d'.manager.layerStack.erase layer.address = d.manager.layerStack.erase layer.address := by
  obtain ⟨m, rest, hm, hstack⟩ := S.mouse
  by_cases hactive : d.activeLayer = layerId
  · exact ⟨d, if_pos hactive, S, rfl, rfl⟩
  · obtain ⟨lm, hlm, O, hsame, hfind⟩ := deactivate_spec S
    obtain ⟨layer', hlayer', haddr⟩ := hfind _ _ h
    obtain ⟨m', hm', hmaddr⟩ := hfind _ _ hm
    have hdiff : layer.address ≠ m.address := S.owned.address_ne h hm hne
    have herase : d.manager.layerStack.erase layer.address =
        rest.erase layer.address ++ [m.address] := by
      rw [hstack, erase_concat_of_ne hdiff]
    have hfind' {f : Layer → Layer} (hf : Keeps f) :
        (lm.modify layer'.address f).findLayer layerId = some (f layer') ∧
          (lm.modify layer'.address f).findLayer d.mouseLayer = some m' := by
      constructor
      · rw [(find_modify hf layerId).2, hlayer', Option.map_some, if_pos rfl]
      · rw [(find_modify hf _).2, hm', Option.map_some, if_neg]
        rw [haddr, hmaddr]
        exact hdiff.symm
    have hraise {f : Layer → Layer} (hf : Keeps f) :=
      raise_spec (O.modify layer'.address hf) (hfind' hf).1 (hfind' hf).2
        (show (lm.modify layer'.address f).layerStack.erase (f layer').address =
            rest.erase layer.address ++ [m'.address] by
          rw [(hf layer').1, modify_layerStack, hsame, haddr, hmaddr]
          exact herase)
    obtain ⟨f, hf, area, back, hredraw⟩ := redraw_spec (d := ⟨lm, layerId, d.mouseLayer⟩) O hlayer' true
      (·.raise layerId d.mouseLayer) fun lm₀ O₀ hf => by
        obtain ⟨f, hf, rfl⟩ := hf
        exact (hraise hf).2.2
    obtain ⟨hstack', hlayers', O'⟩ := hraise hf
    obtain ⟨hl, hm'⟩ := hfind' hf
    replace hstack' := hstack'.trans (by rw [(hf layer').1, haddr, hmaddr] :
      _ = rest.erase layer.address ++ [layer.address, m.address])
    generalize hlm' : (lm.modify layer'.address f).raise layerId d.mouseLayer = lm' at *
    obtain ⟨-, hsame', -⟩ := find_congr hlayers'
    refine ⟨⟨lm'.display area back, layerId, d.mouseLayer⟩, ?_, ⟨O'.congr rfl rfl, ?_, fun _ => ?_⟩, rfl, ?_⟩
    · have hnew : (⟨lm, layerId, d.mouseLayer⟩ : Desktop).activateNew =
          some (lm'.display area back) := (if_pos (Nat.pos_of_ne_zero hid)).trans hredraw
      rw [activate, if_neg hactive, hlm]
      simp only [Option.bind_some, hnew, Option.map_some]
    · exact ⟨m', rest.erase layer.address ++ [layer.address], by rw [← hm', ← hsame']; rfl, by
        rw [display_layerStack, hstack', hmaddr, List.append_assoc]
        rfl⟩
    · exact ⟨f layer', m', rest.erase layer.address, by rw [← hl, ← hsame']; rfl,
        by rw [← hm', ← hsame']; rfl, by
        rw [display_layerStack, hstack', hmaddr, (hf layer').1, haddr]⟩
    · have hnot : layer.address ∉ rest.erase layer.address :=
        (List.nodup_append.mp (hstack ▸ S.owned.nodup)).1.not_mem_erase
      rw [display_layerStack, hstack', herase, List.erase_append_right _ hnot, List.erase_cons_head]

theorem ids_redraw {active : Bool} {raise : LayerManager → LayerManager}
    (hraise : ∀ lm, (raise lm).layers = lm.layers) (h : d.redraw layerId active raise = some lm) :
    lm.ids = d.manager.ids := by
  simp only [redraw, Option.bind_eq_bind, Option.bind_eq_some_iff] at h
  obtain ⟨layer, -, win, -, h⟩ := h
  rw [ids, drawAll_layers h, hraise, ← ids, ids_modify (keeps_setActive active win)]

/-- No layer comes or goes. -/
theorem ids_activate (h : d.activate layerId = some d') : d'.manager.ids = d.manager.ids := by
  rw [activate] at h
  split at h
  · cases h
    rfl
  · obtain ⟨lm, hlm, h⟩ := Option.bind_eq_some_iff.mp h
    obtain ⟨lm', hlm', rfl⟩ := Option.map_eq_some_iff.mp h
    have hold : lm.ids = d.manager.ids := by
      rw [deactivate] at hlm
      split at hlm
      · exact ids_redraw (fun _ => rfl) hlm
      · cases hlm
        rfl
    refine Eq.trans ?_ hold
    rw [activateNew] at hlm'
    split at hlm'
    · refine ids_redraw (fun lm => ?_) hlm'
      rw [raise, upDown_layers, upDown_layers]
    · cases hlm'
      rfl

theorem activate_mouseLayer (h : d.activate layerId = some d') : d'.mouseLayer = d.mouseLayer := by
  rw [activate] at h
  split at h
  · cases h
    rfl
  · obtain ⟨lm, -, h⟩ := Option.bind_eq_some_iff.mp h
    obtain ⟨lm', -, rfl⟩ := Option.map_eq_some_iff.mp h
    rfl

/-- Moving a layer. -/
theorem moveBy_spec (S : Stacked d) (h : d.manager.findLayer layerId = some layer)
    (newPos : Vector2D → Vector2D) : ∃ lm, d.manager.moveBy layerId newPos = some lm ∧
      Stacked { d with manager := lm } := by
  obtain ⟨f, hf, area, area', back, hmove⟩ := S.owned.moveBy_spec h newPos
  have hfind (i : Nat) {l : Layer} (hl : d.manager.findLayer i = some l) :
      ∃ l', (((d.manager.modify layer.address f).draw area).display area' back).findLayer i = some l' ∧
        l'.address = l.address := by
    refine ⟨if l.address = layer.address then f l else l, ?_, ?_⟩
    · exact (find_modify hf i).2.trans (by rw [hl]; rfl)
    · split
      · exact (hf l).1
      · rfl
  refine ⟨_, hmove, (S.owned.modify layer.address hf).congr rfl rfl, ?_, fun hactive => ?_⟩
  · obtain ⟨m, rest, hm, hstack⟩ := S.mouse
    obtain ⟨m', hm', haddr⟩ := hfind _ hm
    exact ⟨m', rest, hm', by rw [haddr]; exact hstack⟩
  · obtain ⟨l, m, rest, hl, hm, hstack⟩ := S.active hactive
    obtain ⟨l', hl', hladdr⟩ := hfind _ hl
    obtain ⟨m', hm', haddr⟩ := hfind _ hm
    exact ⟨l', m', rest, hl', hm', by rw [hladdr, haddr]; exact hstack⟩

/-- The layer that is closed goes, and no other. -/
theorem ids_closeLayer {err : Error} (h : d.closeLayer layerId = some (err, d')) :
    d'.manager.ids = d.manager.ids.filter (· ≠ layerId) := by
  rw [closeLayer] at h
  split at h
  · rename_i hnone
    cases h
    refine (List.filter_eq_self.mpr fun i hi => ?_).symm
    have hnot : layerId ∉ d.manager.ids := by
      rw [← isSome_findLayer, hnone]
      exact Bool.false_ne_true
    simp only [decide_eq_true_eq]
    rintro rfl
    exact hnot hi
  · simp only [Option.bind_eq_bind, Option.bind_eq_some_iff] at h
    obtain ⟨win, -, d₁, hactivate, h⟩ := h
    cases h
    rw [ids, draw_layers, removeLayer, hide_layers, ← ids_activate hactivate, ids, List.filter_map]
    rfl

/-- `CloseLayer` of a layer. -/
theorem closeLayer_spec (S : Stacked d) (hne : layerId ≠ d.mouseLayer)
    (h : d.manager.findLayer layerId = some layer) : ∃ d', d.closeLayer layerId = some (.kSuccess, d') ∧
      Stacked d' ∧ d'.mouseLayer = d.mouseLayer := by
  obtain ⟨win, hwin⟩ := Option.isSome_iff_exists.mp (S.owned.windows layer (findLayer_mem h).1)
  obtain ⟨lm, hactivate, S', hstack, hfind⟩ := activate_zero S
  obtain ⟨layer', h', haddr⟩ := hfind _ _ h
  obtain ⟨m, rest, hm, hrest⟩ := S'.mouse
  have hdiff : layer'.address ≠ m.address := S'.owned.address_ne h' hm hne
  have herase : (lm.removeLayer layerId).layerStack = rest.erase layer'.address ++ [m.address] := by
    simp only [removeLayer, hide_layerStack, findAddress_of_find h']
    simp only at hrest
    rw [hrest, erase_concat_of_ne hdiff]
  refine ⟨⟨(lm.removeLayer layerId).draw ⟨layer.pos, win.size⟩, 0, d.mouseLayer⟩, ?_,
    .of_mouse (m := m) ((S'.owned.removeLayer h').congr rfl rfl) ?_ herase rfl, rfl⟩
  · rw [closeLayer, h]
    simp only [hwin, Option.bind_eq_bind, Option.bind_some, hactivate]
  · have hkept : m.id ≠ layerId := by
      rw [(findLayer_mem hm).2]
      exact hne.symm
    exact (Owned.find_removeLayer hm hkept : (lm.removeLayer layerId).layers.find? _ = some m)

/-- `NewLayer` with its setters. -/
theorem openLayer_spec (S : Stacked d) (h0 : address ≠ 0) (hfresh : d.manager.deref address = none)
    (win : LayerWindow) (pos : Vector2D) (draggable : Bool) :
    Stacked { d with manager := d.manager.openLayer address win pos draggable } := by
  refine ⟨S.owned.openLayer h0 hfresh win pos draggable, ?_, fun h => ?_⟩
  · obtain ⟨m, rest, hm, hstack⟩ := S.mouse
    exact ⟨m, rest, Owned.find_openLayer hfresh win pos draggable hm, hstack⟩
  · obtain ⟨layer, m, rest, hl, hm, hstack⟩ := S.active h
    exact ⟨layer, m, rest, Owned.find_openLayer hfresh win pos draggable hl,
      Owned.find_openLayer hfresh win pos draggable hm, hstack⟩

end Desktop

end MikanOS
