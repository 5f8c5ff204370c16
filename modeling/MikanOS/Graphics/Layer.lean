import MikanOS.Error
import MikanOS.Graphics.FrameBuffer

/-! # Layers

`LayerManager` and `ActiveLayer` of `layer.cpp`. A layer is known by its address to `layer_stack_` and by
its ID to everyone else; the address 0 is `nullptr`. IDs are of the type `unsigned int`. An operation
gives `none` where the code would dereference `nullptr`. -/

namespace MikanOS

structure Layer where
  address : Nat
  id : Nat
  pos : Vector2D
  window : Option LayerWindow
  draggable : Bool

/-- `Layer::DrawTo`. -/
def Layer.drawTo (layer : Layer) (screen : FrameBuffer) (area : Rectangle) : FrameBuffer :=
  match layer.window with
  | some win => win.drawTo screen layer.pos area
  | none => screen

/-- `uninitialized` is the value of the `Rectangle` that `Draw` declares without one. -/
structure LayerManager where
  screen : FrameBuffer
  backBuffer : FrameBuffer
  layers : List Layer
  layerStack : List Nat
  latestId : Nat
  uninitialized : Rectangle

namespace LayerManager

variable (lm : LayerManager)

/-- `NewLayer`, where `new` gives the address. -/
def newLayer (address : Nat) : LayerManager :=
  let latestId := (lm.latestId + 1) % 2 ^ 32
  { lm with latestId, layers := lm.layers ++ [⟨address, latestId, ⟨0, 0⟩, none, false⟩] }

/-- An assignment to a layer through its address. -/
def modify (address : Nat) (f : Layer → Layer) : LayerManager :=
  { lm with layers := lm.layers.map fun layer => if layer.address = address then f layer else layer }

/-- `NewLayer().SetWindow(win).SetDraggable(draggable).Move(pos)`. -/
def openLayer (address : Nat) (win : LayerWindow) (pos : Vector2D) (draggable : Bool) : LayerManager :=
  (lm.newLayer address).modify address fun layer => { layer with window := some win, draggable, pos }

/-- The layer at an address. -/
def deref (address : Nat) : Option Layer := lm.layers.find? fun layer => layer.address = address

/-- `FindLayer`. -/
def findLayer (id : Nat) : Option Layer := lm.layers.find? fun layer => layer.id = id

/-- `FindLayer` as a pointer. -/
def findAddress (id : Nat) : Nat := ((lm.findLayer id).map Layer.address).getD 0

/-- `Hide`. -/
def hide (id : Nat) : LayerManager := { lm with layerStack := lm.layerStack.erase (lm.findAddress id) }

/-- `RemoveLayer`. -/
def removeLayer (id : Nat) : LayerManager :=
  let lm := lm.hide id
  { lm with layers := lm.layers.filter fun layer => layer.id ≠ id }

/-- `UpDown`. The iterators of the vector are indices. -/
def upDown (id : Nat) (newHeight : Int) : LayerManager :=
  if newHeight < 0 then lm.hide id
  else
    let newPos := min newHeight.toNat lm.layerStack.length
    let layer := lm.findAddress id
    if layer ∈ lm.layerStack then
      let newPos := if newPos = lm.layerStack.length then newPos - 1 else newPos
      { lm with layerStack := (lm.layerStack.erase layer).insertIdx newPos layer }
    else { lm with layerStack := lm.layerStack.insertIdx newPos layer }

/-- Whether the ID of the layer at an address is `id`. -/
def hasId (id address : Nat) : Bool := (lm.deref address).any fun layer => layer.id = id

/-- `GetHeight`. -/
def getHeight (id : Nat) : Int :=
  match lm.layerStack.findIdx? (lm.hasId id) with
  | some h => h
  | none => -1

/-- The calls of `UpDown` in `Activate`. -/
def raise (id mouse : Nat) : LayerManager :=
  let lm := lm.upDown id 0
  lm.upDown id (lm.getHeight mouse - 1)

/-- The loops of `Draw` draw one layer after another. -/
def drawLayers (area : Rectangle) (stack : List Nat) (buffer : FrameBuffer) : FrameBuffer :=
  stack.foldl (fun buffer address =>
    match lm.deref address with
    | some layer => layer.drawTo buffer area
    | none => buffer) buffer

/-- The end of `Draw`: the area of the back buffer is copied to the screen. -/
def display (area : Rectangle) (backBuffer : FrameBuffer) : LayerManager :=
  { lm with backBuffer, screen := lm.screen.copy backBuffer area.pos area }

/-- `Draw` of an area. -/
def draw (area : Rectangle) : LayerManager :=
  lm.display area (lm.drawLayers area lm.layerStack lm.backBuffer)

/-- `Draw` of a layer and what lies above it, within an area of the layer unless the size of the area is
negative. -/
def drawLayer (id : Nat) (area : Rectangle) : Option LayerManager :=
  match lm.layerStack.dropWhile fun address => !lm.hasId id address with
  | [] => some (lm.display lm.uninitialized lm.backBuffer)
  | address :: above => do
    let layer ← lm.deref address
    let win ← layer.window
    let windowArea : Rectangle := ⟨layer.pos, win.size⟩
    let windowArea :=
      if 0 ≤ area.size.x ∨ 0 ≤ area.size.y then windowArea.inter ⟨area.pos + windowArea.pos, area.size⟩
      else windowArea
    some (lm.display windowArea (lm.drawLayers windowArea (address :: above) lm.backBuffer))

/-- `Draw` of a layer. -/
def drawAll (id : Nat) : Option LayerManager := lm.drawLayer id ⟨⟨0, 0⟩, ⟨-1, -1⟩⟩

/-- `Move` and `MoveRelative`: `newPos` gives the position after it. -/
def moveBy (id : Nat) (newPos : Vector2D → Vector2D) : Option LayerManager := do
  let layer ← lm.findLayer id
  let win ← layer.window
  let lm := lm.modify layer.address fun layer => { layer with pos := newPos layer.pos }
  (lm.draw ⟨layer.pos, win.size⟩).drawAll id

/-- `Move`. -/
def move (id : Nat) (newPos : Vector2D) : Option LayerManager := lm.moveBy id fun _ => newPos

/-- `MoveRelative`. -/
def moveRelative (id : Nat) (posDiff : Vector2D) : Option LayerManager :=
  lm.moveBy id fun pos => pos + posDiff

/-- `FindLayerByPosition`. -/
def findLayerByPosition (pos : Vector2D) (excludeId : Nat) : Option Layer :=
  (lm.layerStack.reverse.filterMap lm.deref).find? fun layer =>
    layer.id ≠ excludeId ∧ layer.window.any fun win =>
      let winEndPos := layer.pos + win.size
      layer.pos.x ≤ pos.x ∧ pos.x < winEndPos.x ∧ layer.pos.y ≤ pos.y ∧ pos.y < winEndPos.y

end LayerManager

/-- `layer_manager` and `active_layer`. The messages to the tasks of the layers are left out. -/
structure Desktop where
  manager : LayerManager
  activeLayer : Nat
  mouseLayer : Nat

namespace Desktop

variable (d : Desktop)

/-- The title of the window of a layer is drawn and then the layer. `raise` stands for the calls of
`UpDown` between the two. -/
def redraw (id : Nat) (active : Bool) (raise : LayerManager → LayerManager) : Option LayerManager := do
  let layer ← d.manager.findLayer id
  let win ← layer.window
  let lm := d.manager.modify layer.address fun layer =>
    { layer with window := some (win.setActive active) }
  (raise lm).drawAll id

/-- The first part of `Activate`, for the layer that was active. -/
def deactivate : Option LayerManager :=
  if 0 < d.activeLayer then d.redraw d.activeLayer false id else some d.manager

/-- The second part, for the new one. -/
def activateNew : Option LayerManager :=
  if 0 < d.activeLayer then d.redraw d.activeLayer true (·.raise d.activeLayer d.mouseLayer)
  else some d.manager

/-- `Activate`. -/
def activate (layerId : Nat) : Option Desktop :=
  if d.activeLayer = layerId then some d
  else d.deactivate.bind fun manager =>
    let d : Desktop := { d with manager, activeLayer := layerId }
    d.activateNew.map fun manager => { d with manager }

/-- `CloseLayer`. -/
def closeLayer (layerId : Nat) : Option (Error × Desktop) :=
  match d.manager.findLayer layerId with
  | none => some (.kNoSuchEntry, d)
  | some layer => do
    let win ← layer.window
    let d ← d.activate 0
    some (.kSuccess, { d with manager := (d.manager.removeLayer layerId).draw ⟨layer.pos, win.size⟩ })

/-- `InitializeLayer`, with the addresses of the layers and their windows. -/
def initializeLayer (background console : Nat × LayerWindow) : Desktop :=
  let lm := d.manager.openLayer background.1 background.2 ⟨0, 0⟩ false
  let bglayerId := lm.latestId
  let lm := lm.openLayer console.1 console.2 ⟨0, 0⟩ false
  { d with manager := (lm.upDown bglayerId 0).upDown lm.latestId 1 }

/-- `InitializeMainWindow` and `InitializeTextWindow`. -/
def initializeWindow (window : Nat × LayerWindow) (pos : Vector2D) : Desktop :=
  let lm := d.manager.openLayer window.1 window.2 pos true
  { d with manager := lm.upDown lm.latestId (2 ^ 31 - 1) }

/-- `InitializeMouse`. -/
def initializeMouse (mouse : Nat × LayerWindow) : Option Desktop :=
  let lm := d.manager.openLayer mouse.1 mouse.2 ⟨0, 0⟩ false
  let mouseLayerId := lm.latestId
  (lm.move mouseLayerId ⟨200, 200⟩).map fun lm =>
    { d with manager := lm.upDown mouseLayerId (2 ^ 31 - 1), mouseLayer := mouseLayerId }

/-- The layers that `KernelMain` sets up: the background, the console, the main window, the text window
and the mouse. -/
def boot (background console main text mouse : Nat × LayerWindow) : Option Desktop :=
  let d := d.initializeLayer background console
  let d := d.initializeWindow main ⟨300, 100⟩
  let d := d.initializeWindow text ⟨500, 100⟩
  d.initializeMouse mouse

end Desktop

/-- No layer yet. -/
def noLayers (screen backBuffer : FrameBuffer) (uninitialized : Rectangle) : Desktop :=
  ⟨⟨screen, backBuffer, [], [], 0, uninitialized⟩, 0, 0⟩

end MikanOS
