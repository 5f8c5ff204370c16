import MikanOS.Graphics.LayerEvents

/-! # The mouse

`Mouse::OnInterrupt` drags windows by their ID, which it keeps from one report to the next while other
tasks close windows. -/

namespace MikanOS

open LayerManager Layers

/-- `Mouse`, with the layers that it works on and the size of the screen. The messages to the active task
are left out. -/
structure Mouse where
  desktop : Desktop
  screenSize : Vector2D
  layerId : Nat
  position : Vector2D
  dragLayerId : Nat
  previousButtons : UInt8

namespace Mouse

variable (s : Mouse)

/-- The new position of the mouse, within the screen. -/
def nextPosition (dx dy : Int) : Vector2D :=
  let newpos := s.position + ⟨dx, dy⟩
  let last : Vector2D := s.screenSize + ⟨-1, -1⟩
  ⟨max (min newpos.x last.x) 0, max (min newpos.y last.y) 0⟩

def leftPressed (buttons : UInt8) : Bool := buttons &&& 1 ≠ 0

/-- The left button goes down: what is under the mouse is activated, and dragged by its title. -/
def press : Option Mouse :=
  match s.desktop.manager.findLayerByPosition s.position s.layerId with
  | some layer =>
    if layer.draggable then do
      let win ← layer.window
      let dragLayerId :=
        if win.getWindowRegion (s.position - layer.pos) = .kTitleBar then layer.id else s.dragLayerId
      let desktop ← s.desktop.activate layer.id
      some { s with desktop, dragLayerId }
    else (s.desktop.activate 0).map fun desktop => { s with desktop }
  | none => (s.desktop.activate 0).map fun desktop => { s with desktop }

/-- The rest of `OnInterrupt` after the mouse layer was moved by `posDiff`, with what `FindLayer` gives
to `MoveRelative`. -/
def buttons (buttons : UInt8) (posDiff : Vector2D) : List (Option Layer) × Option Mouse :=
  let previousLeftPressed := leftPressed s.previousButtons
  let leftPressed := leftPressed buttons
  if !previousLeftPressed && leftPressed then ([], s.press)
  else if previousLeftPressed && leftPressed then
    if 0 < s.dragLayerId then
      ([s.desktop.manager.findLayer s.dragLayerId],
        (s.desktop.manager.moveRelative s.dragLayerId posDiff).map fun manager =>
          { s with desktop := { s.desktop with manager } })
    else ([], some s)
  else if previousLeftPressed && !leftPressed then ([], some { s with dragLayerId := 0 })
  else ([], some s)

/-- `OnInterrupt`, with what `FindLayer` gives to `Move` and `MoveRelative`. -/
def onInterrupt (buttons : UInt8) (dx dy : Int) : List (Option Layer) × Option Mouse :=
  let position := s.nextPosition dx dy
  let posDiff := position - s.position
  let found := s.desktop.manager.findLayer s.layerId
  match s.desktop.manager.move s.layerId position with
  | none => ([found], none)
  | some manager =>
    let (looked, s') := { s with desktop := { s.desktop with manager }, position }.buttons buttons posDiff
    (found :: looked, s'.map fun s' => { s' with previousButtons := buttons })

/-- The reports of the mouse, and what other tasks do to the layers. They close layers by any ID. -/
inductive Event where
  | report (buttons : UInt8) (dx dy : Int)
  | newLayer (address : Nat) (win : LayerWindow) (pos : Vector2D) (draggable : Bool)
  | activate (layerId : Nat)
  | closeLayer (layerId : Nat)

def step : Event → Option Mouse
  | .report buttons dx dy => (s.onInterrupt buttons dx dy).2
  | .newLayer address win pos draggable =>
    (Layers.system.step s.desktop (.newLayer address win pos draggable)).map fun desktop =>
      { s with desktop }
  | .activate layerId =>
    (Layers.system.step s.desktop (.activate layerId)).map fun desktop => { s with desktop }
  | .closeLayer layerId => (s.desktop.closeLayer layerId).map fun r => { s with desktop := r.2 }

def system : Transition.System Mouse Event := ⟨step⟩

/-- The closed layer is neither the one that is being dragged nor that of the mouse. -/
def Undragged : Event → Prop
  | .closeLayer layerId =>
    layerId ≠ s.layerId ∧ (s.dragLayerId ≠ 0 → layerId ≠ s.dragLayerId)
  | _ => True

instance : (e : Event) → Decidable (s.Undragged e)
  | .closeLayer _ => inferInstanceAs (Decidable (_ ∧ (_ → _)))
  | .report .. | .newLayer .. | .activate _ => inferInstanceAs (Decidable True)

variable {s} {s' : Mouse} {e : Event} {es : List Event} {buttons : UInt8} {dx dy : Int}

/-- The layers that the mouse works on exist, and something is dragged only while the button is held. -/
structure Holding (s : Mouse) : Prop where
  stacked : s.desktop.Stacked
  layer : s.layerId = s.desktop.mouseLayer
  drag : s.dragLayerId ≠ 0 → s.dragLayerId ∈ s.desktop.manager.ids
  held : s.dragLayerId ≠ 0 → leftPressed s.previousButtons = true

/-- What lies under the mouse can be activated. -/
theorem findLayerByPosition_spec {lm : LayerManager} (O : Owned lm) {pos : Vector2D} {excludeId : Nat}
    {layer : Layer} (h : lm.findLayerByPosition pos excludeId = some layer) :
    lm.findLayer layer.id = some layer ∧ layer.id ≠ excludeId := by
  obtain ⟨a, ha, hderef⟩ := List.mem_filterMap.mp (List.mem_of_find?_eq_some h)
  obtain ⟨layer', hderef', hfind⟩ := O.owned a (List.mem_reverse.mp ha)
  rw [hderef] at hderef'
  cases hderef'
  have hpos := List.find?_some h
  simp only [decide_eq_true_eq] at hpos
  exact ⟨hfind, hpos.1⟩

theorem activate_spec {d : Desktop} {layerId : Nat} (S : d.Stacked)
    (h : Enabled d (.activate layerId)) : ∃ d', d.activate layerId = some d' ∧ d'.Stacked ∧
      d'.mouseLayer = d.mouseLayer ∧ d'.manager.ids = d.manager.ids := by
  obtain ⟨d', hactivate, S'⟩ := apply_spec S h
  exact ⟨d', hactivate, S', Desktop.activate_mouseLayer hactivate, Desktop.ids_activate hactivate⟩

theorem press_spec (G : Holding s) (hdrag : s.dragLayerId = 0) (b : UInt8)
    (hb : leftPressed b = true) :
    ∃ s', s.press = some s' ∧ Holding { s' with previousButtons := b } := by
  have hnone : ∃ s', ((s.desktop.activate 0).map fun desktop => { s with desktop }) = some s' ∧
      Holding { s' with previousButtons := b } := by
    obtain ⟨d', hactivate, S', hmouse, -⟩ := activate_spec G.stacked
      (show Enabled s.desktop (.activate 0) from fun h => absurd rfl h)
    exact ⟨{ s with desktop := d' }, by rw [hactivate]; rfl, S', G.layer.trans hmouse.symm, fun h => absurd hdrag h, fun _ => hb⟩
  rw [press]
  cases hfind : s.desktop.manager.findLayerByPosition s.position s.layerId with
  | none => exact hnone
  | some layer =>
    simp only
    by_cases hdraggable : layer.draggable = true
    · obtain ⟨hlayer, hne⟩ := findLayerByPosition_spec G.stacked.owned hfind
      obtain ⟨win, hwin⟩ := Option.isSome_iff_exists.mp
        (G.stacked.owned.windows layer (findLayer_mem hlayer).1)
      have hsome : (s.desktop.manager.findLayer layer.id).isSome := by
        rw [hlayer]
        rfl
      obtain ⟨d', hactivate, S', hmouse, hids⟩ := activate_spec G.stacked
        (show Enabled s.desktop (.activate layer.id) from fun _ => ⟨G.layer ▸ hne, hsome⟩)
      simp only [if_pos hdraggable, hwin, Option.bind_eq_bind, Option.bind_some, hactivate]
      refine ⟨_, rfl, S', G.layer.trans hmouse.symm, fun h => ?_, fun _ => hb⟩
      simp only at h ⊢
      rw [hids]
      split
      · exact isSome_findLayer.mp hsome
      · rename_i hregion
        rw [if_neg hregion] at h
        exact absurd hdrag h
    · simp only [if_neg hdraggable]
      exact hnone

theorem buttons_spec (G : Holding s) (b : UInt8) (posDiff : Vector2D) :
    none ∉ (s.buttons b posDiff).1 ∧
      ∃ s', (s.buttons b posDiff).2 = some s' ∧ Holding { s' with previousButtons := b } := by
  rw [buttons]
  cases hprevious : leftPressed s.previousButtons with
  | false =>
    have hdrag : s.dragLayerId = 0 := by
      by_contra h
      rw [G.held h] at hprevious
      cases hprevious
    cases hb : leftPressed b with
    | false => exact ⟨List.not_mem_nil, s, rfl, G.stacked, G.layer, G.drag, fun h => absurd hdrag h⟩
    | true => exact ⟨List.not_mem_nil, press_spec G hdrag b hb⟩
  | true =>
    cases hb : leftPressed b with
    | false =>
      exact ⟨List.not_mem_nil, { s with dragLayerId := 0 }, rfl, G.stacked, G.layer,
        fun h => absurd rfl h, fun h => absurd rfl h⟩
    | true =>
      simp only [Bool.not_true, Bool.false_eq_true, if_false, Bool.and_true, if_true]
      by_cases hdrag : 0 < s.dragLayerId
      · obtain ⟨layer, hlayer⟩ := Option.isSome_iff_exists.mp
          (isSome_findLayer.mpr (G.drag hdrag.ne'))
        obtain ⟨lm, hmove, S⟩ := Desktop.moveBy_spec G.stacked hlayer fun pos => pos + posDiff
        have hids := ids_moveBy hmove
        have hmove' : s.desktop.manager.moveRelative s.dragLayerId posDiff = some lm := hmove
        rw [if_pos hdrag, hlayer, hmove']
        exact ⟨by simp, { s with desktop := { s.desktop with manager := lm } }, rfl, S, G.layer,
          fun h => by rw [hids]; exact G.drag h, fun _ => hb⟩
      · rw [if_neg hdrag]
        exact ⟨List.not_mem_nil, s, rfl, G.stacked, G.layer, G.drag, fun _ => hb⟩

/-- While the layers exist, a report finds what it looks up. -/
theorem onInterrupt_spec (G : Holding s) (b : UInt8) (dx dy : Int) :
    none ∉ (s.onInterrupt b dx dy).1 ∧ ∃ s', (s.onInterrupt b dx dy).2 = some s' ∧ Holding s' := by
  obtain ⟨m, rest, hm, -⟩ := G.stacked.mouse
  rw [← G.layer] at hm
  obtain ⟨lm, hmove, S⟩ := Desktop.moveBy_spec G.stacked hm fun _ => s.nextPosition dx dy
  have hids := ids_moveBy hmove
  have hmove' : s.desktop.manager.move s.layerId (s.nextPosition dx dy) = some lm := hmove
  simp only [onInterrupt, hmove', hm]
  generalize hs₁ : ({ s with
    desktop := { s.desktop with manager := lm }, position := s.nextPosition dx dy } : Mouse) = s₁
  have G₁ : Holding s₁ := by
    rw [← hs₁]
    exact ⟨S, G.layer, fun h => by rw [hids]; exact G.drag h, G.held⟩
  obtain ⟨hfound, s', hbuttons, G'⟩ := buttons_spec G₁ b (s.nextPosition dx dy - s.position)
  refine ⟨?_, _, by rw [hbuttons]; rfl, G'⟩
  rw [List.mem_cons, not_or]
  exact ⟨Option.some_ne_none m ∘ Eq.symm, hfound⟩

/-- What a step keeps, if it is no closing of a layer that is in use. -/
theorem step_spec (G : Holding s) (hP : s.Undragged e) (h : s.step e = some s') : Holding s' := by
  cases e with
  | report b dx dy =>
    obtain ⟨-, s'', hreport, G'⟩ := onInterrupt_spec G b dx dy
    rw [step, hreport] at h
    cases h
    exact G'
  | newLayer address win pos draggable =>
    obtain ⟨d', hstep, rfl⟩ := Option.map_eq_some_iff.mp h
    have S' := system_step G.stacked hstep
    simp only [Layers.system, Option.ite_none_right_eq_some, Layers.apply, Option.some.injEq] at hstep
    obtain ⟨⟨-, hfresh⟩, rfl⟩ := hstep
    refine ⟨S', G.layer, fun hdrag => ?_, G.held⟩
    obtain ⟨layer, hlayer⟩ := Option.isSome_iff_exists.mp (isSome_findLayer.mpr (G.drag hdrag))
    refine isSome_findLayer.mp (Option.isSome_iff_exists.mpr ⟨layer, ?_⟩)
    exact Owned.find_openLayer hfresh win pos draggable hlayer
  | activate layerId =>
    obtain ⟨d', hstep, rfl⟩ := Option.map_eq_some_iff.mp h
    have S' := system_step G.stacked hstep
    simp only [Layers.system, Option.ite_none_right_eq_some, Layers.apply] at hstep
    obtain ⟨-, hactivate⟩ := hstep
    exact ⟨S', G.layer.trans (Desktop.activate_mouseLayer hactivate).symm,
      fun hdrag => by rw [Desktop.ids_activate hactivate]; exact G.drag hdrag, G.held⟩
  | closeLayer layerId =>
    obtain ⟨⟨err, d'⟩, hclose, rfl⟩ := Option.map_eq_some_iff.mp h
    obtain ⟨hne, hdrag⟩ := hP
    have hids := Desktop.ids_closeLayer hclose
    have hdrag' (h : s.dragLayerId ≠ 0) : s.dragLayerId ∈ d'.manager.ids := by
      rw [hids, List.mem_filter]
      exact ⟨G.drag h, by simpa using (hdrag h).symm⟩
    cases hfind : s.desktop.manager.findLayer layerId with
    | none =>
      rw [Desktop.closeLayer, hfind] at hclose
      cases hclose
      exact ⟨G.stacked, G.layer, hdrag', G.held⟩
    | some layer =>
      obtain ⟨d'', hclose', S', hmouse⟩ := Desktop.closeLayer_spec G.stacked (G.layer ▸ hne) hfind
      rw [hclose'] at hclose
      cases hclose
      exact ⟨S', G.layer.trans hmouse.symm, hdrag', G.held⟩

/-- The mouse as `InitializeMouse` leaves it. -/
def start (d : Desktop) (screenSize : Vector2D) : Mouse :=
  ⟨d, screenSize, d.mouseLayer, ⟨200, 200⟩, 0, 0⟩

/-- Closing a layer that is dragged, or that of the mouse, makes a report look up a layer that is gone. -/
theorem exists_report_of_closeLayer (G : Holding s) {layerId : Nat}
    (hP : ¬ s.Undragged (.closeLayer layerId)) (h : s.step (.closeLayer layerId) = some s') :
    ∃ b dx dy, none ∈ (s'.onInterrupt b dx dy).1 := by
  obtain ⟨⟨err, d'⟩, hclose, rfl⟩ := Option.map_eq_some_iff.mp h
  have hgone : layerId ∉ d'.manager.ids := by
    rw [Desktop.ids_closeLayer hclose, List.mem_filter]
    simp
  have hheld := G.held
  by_cases hmouse : layerId = s.layerId
  · refine ⟨0, 0, 0, ?_⟩
    rw [hmouse, ← findLayer_eq_none] at hgone
    simp only [onInterrupt, hgone]
    split <;> exact List.mem_cons_self
  · have hdrag : s.dragLayerId ≠ 0 ∧ layerId = s.dragLayerId := by
      by_contra hne
      exact hP ⟨hmouse, fun h0 heq => hne ⟨h0, heq⟩⟩
    have hone : leftPressed 1 = true := rfl
    obtain ⟨layer, hlayer⟩ := Option.isSome_iff_exists.mp (isSome_findLayer.mpr (G.drag hdrag.1))
    rw [← hdrag.2] at hlayer
    obtain ⟨d'', hclose', S', hmouse'⟩ := Desktop.closeLayer_spec G.stacked (G.layer ▸ hmouse) hlayer
    rw [hclose'] at hclose
    cases hclose
    obtain ⟨m, rest, hm, -⟩ := S'.mouse
    rw [hmouse', ← G.layer] at hm
    refine ⟨1, 0, 0, ?_⟩
    simp only [onInterrupt]
    generalize nextPosition _ 0 0 = position
    obtain ⟨lm, hmove, -⟩ := Desktop.moveBy_spec S' hm fun _ => position
    have hmove' : d'.manager.move s.layerId position = some lm := hmove
    rw [hdrag.2, ← ids_moveBy hmove, ← findLayer_eq_none] at hgone
    simp only [hmove', buttons, hheld hdrag.1, hone, Bool.not_true, Bool.false_and,
      Bool.false_eq_true, if_false, Bool.and_self, if_true, if_pos (Nat.pos_of_ne_zero hdrag.1), hgone]
    simp

/-- In a run that closes no layer while it is dragged, and not that of the mouse, every report finds the
layers that it moves. Another closing makes the next report look up a layer that is gone. -/
theorem reports_find_layers {d₀ : Desktop} (hlayers : d₀.manager.layers = [])
    (hstack : d₀.manager.layerStack = []) (hlatest : d₀.manager.latestId = 0)
    (hactive : d₀.activeLayer = 0) {background console main text mouse : Nat × LayerWindow}
    (hnodup : [0, background.1, console.1, main.1, text.1, mouse.1].Nodup) {d₁ : Desktop}
    (hboot : d₀.boot background console main text mouse = some d₁) {screenSize : Vector2D}
    (hrun : system.Run (start d₁ screenSize) es s)
    (hclosed : ∀ pre e post t, es = pre ++ e :: post → system.Run (start d₁ screenSize) pre t →
      t.Undragged e) :
    (∀ b dx dy, none ∉ (s.onInterrupt b dx dy).1 ∧ (s.onInterrupt b dx dy).2.isSome) ∧
      ∀ layerId s', ¬ s.Undragged (.closeLayer layerId) → s.step (.closeLayer layerId) = some s' →
        ∃ b dx dy, none ∈ (s'.onInterrupt b dx dy).1 := by
  obtain ⟨d₁', hboot', S₁⟩ := boot_spec hlayers hstack hlatest hactive hnodup
  rw [hboot] at hboot'
  cases hboot'
  have G : Holding s := hrun.invariant_of_forall (I := Holding) (P := fun t e => t.Undragged e)
    (fun _ _ _ G hP h => step_spec G hP h)
    ⟨S₁, rfl, fun h => absurd rfl h, fun h => absurd rfl h⟩ hclosed
  refine ⟨fun b dx dy => ?_, fun layerId s' hP h => exists_report_of_closeLayer G hP h⟩
  obtain ⟨hfound, s', hreport, -⟩ := onInterrupt_spec G b dx dy
  exact ⟨hfound, by rw [hreport]; rfl⟩

/-- The layers of the set-up with a title on the main window, which has the ID 3. -/
def titledBoot : Option Desktop :=
  (noLayers smallScreen smallScreen ⟨⟨0, 0⟩, ⟨0, 0⟩⟩).boot (1, bgWindow) (2, textWindow)
    (3, { textWindow with toplevel := true }) (4, textWindow) (5, mouseWindow)

/-- The mouse goes to the title of the main window, and the left button goes down. -/
def grab : List Event := [.report 0 110 (-95), .report 1 0 0]

/-- While the main window is dragged, the text window is closed. -/
theorem reports_find_layers_titled : ∃ d₁ s, titledBoot = some d₁ ∧
    system.Run (start d₁ ⟨400, 300⟩) (grab ++ [.closeLayer 4]) s ∧
    ∀ b dx dy, none ∉ (s.onInterrupt b dx dy).1 := by
  have hexec : (titledBoot.bind fun d₁ => (system.exec (start d₁ ⟨400, 300⟩) grab).bind fun t =>
      (t.step (.closeLayer 4)).map fun _ => (t.layerId, t.dragLayerId)) = some (5, 3) := by
    decide +kernel
  obtain ⟨d₁, hboot, hexec⟩ := Option.bind_eq_some_iff.mp hexec
  obtain ⟨t, ht, hexec⟩ := Option.bind_eq_some_iff.mp hexec
  obtain ⟨s, hs, hids⟩ := Option.map_eq_some_iff.mp hexec
  obtain ⟨hlayerId, hdragLayerId⟩ := Prod.mk.inj hids
  have hgrab := Transition.System.run_of_exec ht
  have hstep : system.step t (.closeLayer 4) = some s := hs
  have hundragged : t.Undragged (.closeLayer 4) :=
    ⟨by rw [hlayerId]; decide, fun _ => by rw [hdragLayerId]; decide⟩
  have hreports (e : Event) (he : e ∈ grab) (t : Mouse) : t.Undragged e := by
    simp only [grab, List.mem_cons, List.not_mem_nil, or_false] at he
    rcases he with rfl | rfl
    all_goals exact trivial
  have hboot' := hboot
  rw [titledBoot] at hboot'
  refine ⟨d₁, s, hboot, hgrab.snoc hstep, fun b dx dy => ?_⟩
  exact ((reports_find_layers rfl rfl rfl rfl (by decide) hboot' (hgrab.snoc hstep)
    (hgrab.forall_snoc (P := fun t e => t.Undragged e) hundragged fun pre e post t' hes _ =>
      hreports e (by rw [hes]; simp) t')).1 b dx dy).1

/-- A window is closed while it is dragged. -/
theorem not_reports_find_layers : ∃ d₁ s, titledBoot = some d₁ ∧
    system.Run (start d₁ ⟨400, 300⟩) (grab ++ [.closeLayer 3]) s ∧ none ∈ (s.onInterrupt 1 5 5).1 := by
  have hexec : ((titledBoot.bind fun d₁ =>
      (system.exec (start d₁ ⟨400, 300⟩) (grab ++ [.closeLayer 3])).map fun s => (d₁, s)).map fun r =>
        (r.2.onInterrupt 1 5 5).1.any Option.isNone) = some true := by decide +kernel
  obtain ⟨⟨d₁, s⟩, hr, hnone⟩ := Option.map_eq_some_iff.mp hexec
  obtain ⟨d₁', hboot, hs⟩ := Option.bind_eq_some_iff.mp hr
  obtain ⟨s', hs', heq⟩ := Option.map_eq_some_iff.mp hs
  cases heq
  obtain ⟨found, hmem, hfound⟩ := List.any_eq_true.mp hnone
  rw [Option.isNone_iff_eq_none] at hfound
  exact ⟨d₁, s, hboot, Transition.System.run_of_exec hs', hfound ▸ hmem⟩

end Mouse

end MikanOS
