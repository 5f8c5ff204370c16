import MikanOS.Graphics.LayerStack

/-! # The layers over a run

From the set-up in `KernelMain` on, through any sequence of windows that are opened, activated and
closed. -/

namespace MikanOS

open LayerManager

variable {lm : LayerManager} {d d' : Desktop} {layer : Layer} {address : Nat}

/-! ## Setting up -/

/-- During the set-up: the layers have the IDs up to `n`, and their addresses are listed. -/
structure Booting (n : Nat) (addresses : List Nat) (lm : LayerManager) : Prop where
  owned : Owned lm
  latest : lm.latestId = n
  ids : ∀ layer ∈ lm.layers, layer.id ≤ n
  addresses : lm.layers.map Layer.address = addresses

namespace Booting

variable {n : Nat} {addresses : List Nat}

theorem deref_none (B : Booting n addresses lm) (hfresh : address ∉ addresses) :
    lm.deref address = none := by
  refine List.find?_eq_none.mpr fun l hl => ?_
  rw [← B.addresses] at hfresh
  simp only [decide_eq_true_eq]
  rintro rfl
  exact hfresh (List.mem_map_of_mem hl)

theorem openLayer (B : Booting n addresses lm) (hn : n + 1 < 2 ^ 32) (h0 : address ≠ 0)
    (hfresh : address ∉ addresses) (win : LayerWindow) (pos : Vector2D) (draggable : Bool) :
    Booting (n + 1) (addresses ++ [address]) (lm.openLayer address win pos draggable) ∧
      (lm.openLayer address win pos draggable).findLayer (n + 1) =
        some ⟨address, n + 1, pos, some win, draggable⟩ := by
  have hderef := B.deref_none hfresh
  have hid : (lm.latestId + 1) % 2 ^ 32 = n + 1 := by
    rw [B.latest, Nat.mod_eq_of_lt hn]
  have hlayers := Owned.openLayer_layers hderef win pos draggable
  rw [hid] at hlayers
  refine ⟨⟨B.owned.openLayer h0 hderef win pos draggable, hid, fun l hl => ?_, ?_⟩, ?_⟩
  · rw [hlayers, List.mem_append, List.mem_singleton] at hl
    rcases hl with hl | rfl
    · exact (B.ids l hl).trans (Nat.le_succ n)
    · exact le_rfl
  · rw [hlayers, List.map_append, B.addresses]
    rfl
  · have hnone : lm.layers.find? (fun layer => decide (layer.id = n + 1)) = none := by
      refine List.find?_eq_none.mpr fun l hl => ?_
      have := B.ids l hl
      simp only [decide_eq_true_eq]
      omega
    rw [findLayer, hlayers, List.find?_append, hnone, Option.none_or]
    simp

theorem upDown (B : Booting n addresses lm) {id : Nat} (h : lm.findLayer id = some layer)
    {newHeight : Int} (hnewHeight : 0 ≤ newHeight) : Booting n addresses (lm.upDown id newHeight) := by
  refine ⟨B.owned.upDown h hnewHeight, (upDown_latestId newHeight).trans B.latest, ?_, ?_⟩
  · rw [upDown_layers]
    exact B.ids
  · rw [upDown_layers]
    exact B.addresses

theorem initializeWindow (B : Booting n addresses d.manager) (hn : n + 1 < 2 ^ 32)
    {window : Nat × LayerWindow} (h0 : window.1 ≠ 0) (hfresh : window.1 ∉ addresses)
    (pos : Vector2D) : Booting (n + 1) (addresses ++ [window.1]) (d.initializeWindow window pos).manager := by
  obtain ⟨B', hfind⟩ := B.openLayer hn h0 hfresh window.2 pos true
  rw [← B'.latest] at hfind
  exact B'.upDown hfind (Int.le_of_lt (by decide : (0 : Int) < 2 ^ 31 - 1))

theorem initializeLayer {background console : Nat × LayerWindow} (B : Booting 0 [] d.manager)
    (hb0 : background.1 ≠ 0) (hc0 : console.1 ≠ 0) (hbc : background.1 ≠ console.1) :
    Booting 2 [background.1, console.1] (d.initializeLayer background console).manager := by
  obtain ⟨B₁, hfind₁⟩ := B.openLayer (by decide) hb0 List.not_mem_nil background.2 ⟨0, 0⟩ false
  have hfresh : console.1 ∉ ([] : List Nat) ++ [background.1] := by
    simpa using hbc.symm
  obtain ⟨B₂, hfind₂⟩ := B₁.openLayer (by decide) hc0 hfresh console.2 ⟨0, 0⟩ false
  have hfind₁' := Owned.find_openLayer (B₁.deref_none hfresh) console.2 ⟨0, 0⟩ false hfind₁
  have B₃ := B₂.upDown hfind₁' (le_refl 0)
  have hfind₂' := hfind₂
  rw [← (find_congr (upDown_layers 0)).2.1] at hfind₂'
  have B₄ := B₃.upDown hfind₂' Int.one_nonneg
  rw [Desktop.initializeLayer]
  simp only [B₁.latest, B₂.latest] at B₄ ⊢
  exact B₄

theorem initializeMouse (B : Booting n addresses d.manager) (hn : n + 1 < 2 ^ 32)
    (hlength : addresses.length < 2 ^ 31) (hactive : d.activeLayer = 0) {mouse : Nat × LayerWindow}
    (h0 : mouse.1 ≠ 0) (hfresh : mouse.1 ∉ addresses) : ∃ d', d.initializeMouse mouse = some d' ∧ d'.Stacked := by
  obtain ⟨B', hfind⟩ := B.openLayer (by omega) h0 hfresh mouse.2 ⟨0, 0⟩ false
  obtain ⟨f, hf, area, area', back, hmove⟩ := B'.owned.moveBy_spec hfind fun _ => ⟨200, 200⟩
  generalize hlm : d.manager.openLayer mouse.1 mouse.2 ⟨0, 0⟩ false = lm at B' hfind hmove
  have O : Owned (((lm.modify mouse.1 f).draw area).display area' back) :=
    (B'.owned.modify mouse.1 hf).congr rfl rfl
  have hm : (((lm.modify mouse.1 f).draw area).display area' back).findLayer (n + 1) =
      some (f ⟨mouse.1, n + 1, ⟨0, 0⟩, some mouse.2, false⟩) := by
    refine (find_modify hf (n + 1)).2.trans ?_
    rw [hfind, Option.map_some, if_pos rfl]
  have hnot : mouse.1 ∉ lm.layerStack := by
    intro hmem
    rw [← hlm] at hmem
    obtain ⟨l, hl, -⟩ := B.owned.owned mouse.1 hmem
    rw [B.deref_none hfresh] at hl
    cases hl
  have hmax : (lm.layerStack.length : Int) ≤ 2 ^ 31 - 1 := by
    have hsub : lm.layerStack.Subperm addresses := by
      refine List.Nodup.subperm B'.owned.nodup fun a ha => ?_
      rw [← hlm] at ha
      obtain ⟨l, hl, -⟩ := B.owned.owned a ha
      rw [← B.addresses, ← (deref_mem hl).2]
      exact List.mem_map_of_mem (deref_mem hl).1
    have := hsub.length_le
    omega
  have hstack : (((lm.modify mouse.1 f).draw area).display area' back).layerStack = lm.layerStack := rfl
  generalize ((lm.modify mouse.1 f).draw area).display area' back = lm' at *
  rw [← hstack] at hnot hmax
  obtain ⟨-, hfind', -⟩ := find_congr (upDown_layers (2 ^ 31 - 1) :
    (lm'.upDown (n + 1) (2 ^ 31 - 1)).layers = lm'.layers)
  refine ⟨⟨lm'.upDown (n + 1) (2 ^ 31 - 1), d.activeLayer, n + 1⟩, ?_, .of_mouse
    (O.upDown hm (Int.le_of_lt (by decide : (0 : Int) < 2 ^ 31 - 1))) ?_
    (upDown_max hm hmax ?_) hactive⟩
  · rw [Desktop.initializeMouse, hlm]
    simp only [B'.latest, LayerManager.move, hmove, Option.map_some]
  · rw [hfind']
    exact hm
  · rw [(hf _).1]
    exact hnot

end Booting

/-- After the set-up the mouse layer is on top, and no window is active. -/
theorem boot_spec {d : Desktop} (hlayers : d.manager.layers = []) (hstack : d.manager.layerStack = [])
    (hlatest : d.manager.latestId = 0) (hactive : d.activeLayer = 0)
    {background console main text mouse : Nat × LayerWindow}
    (hnodup : [0, background.1, console.1, main.1, text.1, mouse.1].Nodup) :
    ∃ d', d.boot background console main text mouse = some d' ∧ d'.Stacked := by
  have B₀ : Booting 0 [] d.manager := by
    refine ⟨⟨?_, ?_, ?_, ?_, ?_⟩, hlatest, ?_, ?_⟩
    all_goals simp [hlayers, hstack]
  simp only [List.nodup_cons, List.mem_cons, not_or, List.not_mem_nil, not_false_iff, and_true,
    List.nodup_nil] at hnodup
  obtain ⟨⟨hb0, hc0, hm0, ht0, ho0⟩, ⟨hbc, hbm, hbt, hbo⟩, ⟨hcm, hct, hco⟩, ⟨hmt, hmo⟩, hto⟩ := hnodup
  have B₂ := B₀.initializeLayer (Ne.symm hb0) (Ne.symm hc0) hbc
  have B₃ := B₂.initializeWindow (by decide) (Ne.symm hm0) (by simp [Ne.symm hbm, Ne.symm hcm]) ⟨300, 100⟩
  have B₄ := B₃.initializeWindow (by decide) (Ne.symm ht0)
    (by simp [Ne.symm hbt, Ne.symm hct, Ne.symm hmt]) ⟨500, 100⟩
  exact B₄.initializeMouse (by decide) (by simp) hactive (Ne.symm ho0)
    (by simp [Ne.symm hbo, Ne.symm hco, Ne.symm hmo, Ne.symm hto])

/-! ## The system -/

namespace Layers

inductive Event where
  | newLayer (address : Nat) (win : LayerWindow) (pos : Vector2D) (draggable : Bool)
  | activate (layerId : Nat)
  | closeLayer (layerId : Nat)

/-- `new` gives an address that no layer has. What is activated and closed are layers other than that of
the mouse; `Activate(0)` activates none. -/
def Enabled (d : Desktop) : Event → Prop
  | .newLayer address _ _ _ => address ≠ 0 ∧ d.manager.deref address = none
  | .activate layerId =>
    layerId ≠ 0 → layerId ≠ d.mouseLayer ∧ (d.manager.findLayer layerId).isSome
  | .closeLayer layerId => layerId ≠ d.mouseLayer ∧ (d.manager.findLayer layerId).isSome

instance (d : Desktop) : (e : Event) → Decidable (Enabled d e)
  | .newLayer _ _ _ _ => inferInstanceAs (Decidable (_ ∧ _))
  | .activate _ => inferInstanceAs (Decidable (_ → _ ∧ _))
  | .closeLayer _ => inferInstanceAs (Decidable (_ ∧ _))

/-- What an event does, `none` if it dereferences `nullptr`. -/
def apply (d : Desktop) : Event → Option Desktop
  | .newLayer address win pos draggable =>
    some { d with manager := d.manager.openLayer address win pos draggable }
  | .activate layerId => d.activate layerId
  | .closeLayer layerId => (d.closeLayer layerId).map Prod.snd

def system : Transition.System Desktop Event :=
  ⟨fun d e => if Enabled d e then apply d e else none⟩

variable {es : List Event} {e : Event}

/-- Every enabled event is possible, and keeps the stack as it should be. -/
theorem apply_spec (S : d.Stacked) (h : Enabled d e) : ∃ d', apply d e = some d' ∧ d'.Stacked := by
  cases e with
  | newLayer address win pos draggable =>
    exact ⟨_, rfl, Desktop.openLayer_spec S h.1 h.2 win pos draggable⟩
  | activate layerId =>
    by_cases h0 : layerId = 0
    · obtain ⟨lm, hactivate, S', -⟩ := Desktop.activate_zero S
      exact ⟨_, h0 ▸ hactivate, S'⟩
    · obtain ⟨hne, hsome⟩ := h h0
      obtain ⟨layer, hlayer⟩ := Option.isSome_iff_exists.mp hsome
      obtain ⟨d', hactivate, S', -⟩ := Desktop.activate_spec S h0 hne hlayer
      exact ⟨d', hactivate, S'⟩
  | closeLayer layerId =>
    obtain ⟨layer, hlayer⟩ := Option.isSome_iff_exists.mp h.2
    obtain ⟨d', hclose, S', -⟩ := Desktop.closeLayer_spec S h.1 hlayer
    exact ⟨d', by rw [apply, hclose]; rfl, S'⟩

theorem system_step (S : d.Stacked) (h : system.step d e = some d') : d'.Stacked := by
  simp only [system, Option.ite_none_right_eq_some] at h
  obtain ⟨d'', happly, S'⟩ := apply_spec S h.1
  rw [happly] at h
  cases h.2
  exact S'

/-- What `Activate` does to the order of the other layers. -/
theorem activate_order (S : d.Stacked) {layerId : Nat} (h : system.step d (.activate layerId) = some d') :
    d'.manager.layerStack.filter (· ≠ d.manager.findAddress layerId) =
      d.manager.layerStack.filter (· ≠ d.manager.findAddress layerId) := by
  simp only [system, Option.ite_none_right_eq_some, apply] at h
  obtain ⟨henabled, h⟩ := h
  by_cases h0 : layerId = 0
  · obtain ⟨lm, hactivate, -, hstack, -⟩ := Desktop.activate_zero S
    rw [h0, hactivate] at h
    cases h
    rw [hstack]
  · obtain ⟨hne, hsome⟩ := henabled h0
    obtain ⟨layer, hlayer⟩ := Option.isSome_iff_exists.mp hsome
    obtain ⟨d'', hactivate, S', -, herase⟩ := Desktop.activate_spec S h0 hne hlayer
    rw [hactivate] at h
    cases h
    rw [S'.owned.nodup.erase_eq_filter, S.owned.nodup.erase_eq_filter] at herase
    rw [findAddress_of_find hlayer]
    simpa only [bne_iff_ne, ne_eq, decide_not, bne, Bool.beq_eq_decide_eq] using herase

/-- From the set-up on, whatever windows are opened, activated and closed: the stack has no duplicates,
its elements are layers, the mouse layer is on top and the active layer directly below it, every event
is possible, and activating a layer leaves the others in order. -/
theorem layerStack_ordered {d₀ : Desktop} (hlayers : d₀.manager.layers = [])
    (hstack : d₀.manager.layerStack = []) (hlatest : d₀.manager.latestId = 0)
    (hactive : d₀.activeLayer = 0) {background console main text mouse : Nat × LayerWindow}
    (hnodup : [0, background.1, console.1, main.1, text.1, mouse.1].Nodup) {d₁ : Desktop}
    (hboot : d₀.boot background console main text mouse = some d₁) (hrun : system.Run d₁ es d) :
    d.manager.layerStack.Nodup ∧
      (∀ address ∈ d.manager.layerStack, ∃ layer ∈ d.manager.layers, layer.address = address) ∧
      (∃ m rest, d.manager.findLayer d.mouseLayer = some m ∧
        d.manager.layerStack = rest ++ [m.address]) ∧
      (d.activeLayer ≠ 0 → ∃ layer m rest, d.manager.findLayer d.activeLayer = some layer ∧
        d.manager.findLayer d.mouseLayer = some m ∧
        d.manager.layerStack = rest ++ [layer.address, m.address]) ∧
      (∀ e, Enabled d e → (system.step d e).isSome) ∧
      ∀ layerId d', system.step d (.activate layerId) = some d' →
        d'.manager.layerStack.filter (· ≠ d.manager.findAddress layerId) =
          d.manager.layerStack.filter (· ≠ d.manager.findAddress layerId) := by
  obtain ⟨d₁', hboot', S₁⟩ := boot_spec hlayers hstack hlatest hactive hnodup
  rw [hboot] at hboot'
  cases hboot'
  have S : d.Stacked := hrun.invariant (fun _ _ _ S h => system_step S h) S₁
  refine ⟨S.owned.nodup, fun address ha => ?_, S.mouse, S.active, fun e henabled => ?_,
    fun layerId d' h => activate_order S h⟩
  · obtain ⟨layer, hderef, -⟩ := S.owned.owned address ha
    exact ⟨layer, deref_mem hderef⟩
  · obtain ⟨d', happly, -⟩ := apply_spec S henabled
    simp only [system, if_pos henabled, happly, Option.isSome_some]

/-- A window without pixels of its own. -/
def plainWindow (size : Int) (h : 0 ≤ size ∧ size < 2 ^ 20) : LayerWindow where
  width := size
  height := size
  width_nonneg := h.1
  width_lt := h.2.trans (by decide)
  height_nonneg := h.1
  height_lt := h.2.trans (by decide)
  pixels_le := (mul_le_mul h.2.le h.2.le h.1 (by decide)).trans (by decide)
  toplevel := false
  transparentColor := none
  data := fun _ => ⟨0, 0, 0⟩
  shadowBuffer := fun _ => ⟨0, 0, 0⟩
  titlePixels := fun _ => []

def bgWindow : LayerWindow := plainWindow 400 (by decide)

def textWindow : LayerWindow := plainWindow 40 (by decide)

def mouseWindow : LayerWindow := plainWindow 15 (by decide)

def smallScreen : FrameBuffer := ⟨400, 300, fun _ => ⟨0, 0, 0⟩⟩

/-- The layers of the set-up, at the addresses 1 to 5. -/
def smallBoot : Option Desktop :=
  (noLayers smallScreen smallScreen ⟨⟨0, 0⟩, ⟨0, 0⟩⟩).boot (1, bgWindow) (2, textWindow) (3, textWindow)
    (4, textWindow) (5, mouseWindow)

/-- A window is opened, activated and closed again. -/
def windowEvents : List Event :=
  [.newLayer 6 (plainWindow 20 (by decide)) ⟨10, 10⟩ true, .activate 6, .activate 3, .closeLayer 6]

theorem layerStack_ordered_small : ∃ d₁ d, smallBoot = some d₁ ∧ system.Run d₁ windowEvents d ∧
    d.manager.layerStack = [1, 2, 4, 3, 5] ∧ d.manager.layerStack.Nodup := by
  have hexec : ((smallBoot.bind fun d₁ => system.exec d₁ windowEvents).map fun d =>
      d.manager.layerStack) = some [1, 2, 4, 3, 5] := by decide +kernel
  obtain ⟨d, hd, hstack⟩ := Option.map_eq_some_iff.mp hexec
  obtain ⟨d₁, hboot, hexec⟩ := Option.bind_eq_some_iff.mp hd
  have hrun := Transition.System.run_of_exec hexec
  have hboot' := hboot
  rw [smallBoot] at hboot'
  exact ⟨d₁, d, hboot, hrun, hstack, (layerStack_ordered rfl rfl rfl rfl (by decide) hboot' hrun).1⟩

end Layers

end MikanOS
