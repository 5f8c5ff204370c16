import MikanOS.Graphics.Drawing

/-! # Redrawing a part of the screen

`Move`, `Activate` and `CloseLayer` draw an old area and the layers from the affected one upwards. Here this is
compared with the picture that all layers give together. -/

namespace MikanOS

open LayerManager

variable {lm lm' : LayerManager} {d : Desktop} {layer m : Layer} {layerId address : Nat} {area : Rectangle}
  {f : Layer → Layer} {p : Vector2D}

namespace LayerManager

/-- In a pixel that a layer covers, both buffers have the colour of the topmost one. -/
def ShownAt (lm : LayerManager) (p : Vector2D) : Prop :=
  ∀ c ∈ lm.topmost p, lm.backBuffer.pixel p = c ∧ lm.screen.pixel p = c

/-- All of the screen and of `back_buffer_` is as it should be. -/
def Shown (lm : LayerManager) : Prop := ∀ p ∈ lm.screen.outline, lm.ShownAt p

/-- The layer at the bottom is opaque and covers the screen. -/
def Covered (lm : LayerManager) : Prop :=
  ∃ address above layer win, lm.layerStack = address :: above ∧ lm.deref address = some layer ∧
    layer.window = some win ∧ win.transparentColor = none ∧
    ∀ p ∈ lm.screen.outline, p ∈ (⟨layer.pos, win.size⟩ : Rectangle)

/-- Then there is a colour for every pixel. -/
theorem Covered.shown_iff (C : Covered lm) : lm.Shown ↔ ∀ p ∈ lm.screen.outline,
    lm.topmost p = some (lm.screen.pixel p) ∧ lm.backBuffer.pixel p = lm.screen.pixel p := by
  obtain ⟨address, above, layer, win, hstack, hlayer, hwin, hcolour, hcover⟩ := C
  refine forall₂_congr fun p hp => ?_
  have hbottom : (lm.picture address p).isSome := by
    rw [picture, hlayer, Option.bind_some, Layer.picture, hwin]
    exact LayerWindow.isSome_picture (hcover p hp) hcolour
  have hsome : (lm.topmost p).isSome := by
    rw [topmost, hstack, Painting.topmost_cons, Option.isSome_or, hbottom, Bool.or_true]
  obtain ⟨c, hc⟩ := Option.isSome_iff_exists.mp hsome
  rw [ShownAt, hc]
  constructor
  · intro H
    obtain ⟨hback, hscreen⟩ := H c rfl
    exact ⟨by rw [hscreen], by rw [hback, hscreen]⟩
  · rintro ⟨hscreen, hback⟩ c' hc'
    obtain rfl := Option.some.inj hscreen
    obtain rfl := Option.some.inj hc'
    exact ⟨hback, rfl⟩

/-- Only the layer on top of the stack may be transparent. -/
def SolidBelow (lm : LayerManager) : Prop := ∀ address ∈ lm.layerStack.dropLast, lm.Solid address

/-! ## Drawing the upper layers in an area -/

theorem Displayable.inInt_outline (D : Displayable lm) : lm.screen.outline.InInt := by
  obtain ⟨hw, hw'⟩ := D.screen.width
  obtain ⟨hh, hh'⟩ := D.screen.height
  have houtline : lm.screen.outline = ⟨⟨0, 0⟩, ⟨lm.screen.horizontalResolution, lm.screen.verticalResolution⟩⟩ := rfl
  rw [houtline]
  constructor
  all_goals dsimp only; omega

/-- What is displayed of an area. -/
theorem Displayable.display_pixel (D : Displayable lm) (hpos : area.pos.IsInt) (back : FrameBuffer) :
    (lm.display area back).screen.pixel p =
      if p ∈ lm.screen.outline.inter area then back.pixel p else lm.screen.pixel p :=
  FrameBuffer.copy_same (Rectangle.isInt_pos_inter D.screen.isInt_outline.pos hpos)

/-- Drawing the upper layers in an area keeps what is shown, and shows the pixels of the area if there all of the
layers are drawn or one of the drawn ones is seen. -/
theorem Displayable.shownAt_display (D : Displayable lm) (A : Drawn lm area) (hsolid : lm.SolidBelow)
    {below above : List Nat} (hstack : lm.layerStack = below ++ above) (hp : p ∈ lm.screen.outline)
    (h : lm.ShownAt p ∨ p ∈ area ∧ ((Painting.topmost lm.picture above p).isSome ∨ below = [])) :
    (lm.display area (lm.drawLayers area above lm.backBuffer)).ShownAt p := by
  intro c hc
  change c ∈ lm.topmost p at hc
  have htop : lm.topmost p = (Painting.topmost lm.picture above p).or (Painting.topmost lm.picture below p) := by
    rw [topmost, hstack, Painting.topmost_append]
  have hmem : p ∈ lm.screen.outline.inter area ↔ p ∈ area := by
    rw [Rectangle.mem_inter D.screen.isInt_outline A.isInt]
    exact ⟨fun h => h.2.2, fun h => ⟨⟨D.inInt_outline, A.inInt p hp h⟩, hp, h⟩⟩
  rw [D.display_pixel A.isInt.pos, if_congr hmem rfl rfl]
  change (lm.drawLayers area above lm.backBuffer).pixel p = c ∧ _
  by_cases harea : p ∈ area
  · rw [if_pos harea, and_self, D.drawLayers_inside A hp D.size harea]
    rw [htop] at hc
    cases habove : Painting.topmost lm.picture above p with
    | some c' =>
      rw [habove] at hc
      exact Option.some.inj hc
    | none =>
      rcases h with hshown | ⟨-, hsome | hall⟩
      · rw [← htop] at hc
        exact (hshown c hc).1
      · rw [habove] at hsome
        cases hsome
      · rw [habove, hall] at hc
        cases hc
  · have hshown := (h.resolve_right fun h => harea h.1) c hc
    rw [if_neg harea]
    refine ⟨?_, hshown.2⟩
    rcases List.eq_nil_or_concat above with rfl | ⟨upper, last, rfl⟩
    · exact hshown.1
    · -- the last layer may be drawn outside of the area, too, but then it is the one that is seen
      rw [List.concat_eq_append] at *
      have hupper : (lm.drawLayers area upper lm.backBuffer).pixel p = lm.backBuffer.pixel p := by
        refine D.drawLayers_outside A hp D.size harea fun a ha => hsolid a ?_
        rw [hstack, ← List.append_assoc, List.dropLast_concat]
        exact List.mem_append_right _ ha
      rw [drawLayers_append]
      rcases (D.drawOne_pixel A hp ((size_drawLayers _ _).trans D.size)).1 with hdrawn | ⟨-, hkept⟩
      · rw [hdrawn, hupper]
        cases hlast : lm.picture last p with
        | none => exact hshown.1
        | some c' =>
          have hlast' : Painting.topmost lm.picture [last] p = some c' := by
            rw [Painting.topmost_cons, hlast]
            rfl
          rw [htop, Painting.topmost_append, hlast'] at hc
          exact Option.some.inj hc
      · rw [hkept, hupper]
        exact hshown.1

/-! ## Drawing a layer -/

/-- The place of a layer whose window is in the heap can be drawn. -/
theorem Displayable.drawn (D : Displayable lm) {win : LayerWindow} (hwin : win.Held) {pos : Vector2D}
    (hpos : pos.IsInt) : Drawn lm ⟨pos, win.size⟩ where
  isInt := LayerWindow.isInt_rectangle hpos
  inInt p hp hmem := by
    have hzero : (⟨⟨0, 0⟩, ⟨0, 0⟩⟩ : Rectangle).InInt :=
      ⟨by decide, by decide, by decide, by decide, by decide, by decide⟩
    exact (hwin.drawable D.screen hp hmem hzero).window

theorem dropWhile_hasId (O : Owned lm) (h : lm.findLayer layerId = some layer) :
    (layer.address ∉ lm.layerStack ∧ lm.layerStack.dropWhile (fun a => !lm.hasId layerId a) = []) ∨
    ∃ below above, lm.layerStack = below ++ layer.address :: above ∧
      lm.layerStack.dropWhile (fun a => !lm.hasId layerId a) = layer.address :: above := by
  cases hdrop : lm.layerStack.dropWhile fun a => !lm.hasId layerId a with
  | nil =>
    refine .inl ⟨fun hmem => ?_, rfl⟩
    have hnot := List.dropWhile_eq_nil_iff.mp hdrop layer.address hmem
    rw [(O.hasId_iff h hmem).mpr rfl] at hnot
    cases hnot
  | cons a above =>
    have hsplit := List.takeWhile_append_dropWhile (p := fun a => !lm.hasId layerId a) (l := lm.layerStack)
    rw [hdrop] at hsplit
    have hhead : lm.hasId layerId a = true := by
      have hne : lm.layerStack.dropWhile (fun a => !lm.hasId layerId a) ≠ [] := hdrop ▸ List.cons_ne_nil a above
      have hnot := List.head_dropWhile_not _ hne
      simp only [hdrop, List.head_cons] at hnot
      simpa using hnot
    have hmem : a ∈ lm.layerStack := hsplit ▸ List.mem_append_right _ List.mem_cons_self
    obtain rfl := (O.hasId_iff h hmem).mp hhead
    exact .inr ⟨_, above, hsplit.symm, rfl⟩

/-- `Draw` of a layer shows everything if where the layer has no colour, or is not in the stack, everything was
shown before. -/
theorem drawAll_shown (O : Owned lm) (D : Displayable lm) (hsolid : lm.SolidBelow)
    (h : lm.findLayer layerId = some layer)
    (hshown : ∀ p ∈ lm.screen.outline, (layer.address ∈ lm.layerStack → layer.picture p = none) → lm.ShownAt p) :
    ∃ area back, back.size = lm.screen.size ∧ lm.drawAll layerId = some (lm.display area back) ∧
      (lm.display area back).Shown := by
  have hmem := (findLayer_mem h).1
  rw [drawAll, drawLayer]
  rcases dropWhile_hasId O h with ⟨hnot, hdrop⟩ | ⟨below, above, hstack, hdrop⟩
  · rw [hdrop]
    refine ⟨_, _, D.size, rfl, fun p hp c hc => ?_⟩
    obtain ⟨hback, hscreen⟩ := hshown p hp (fun hin => absurd hin hnot) c hc
    rw [D.display_pixel D.uninitialized]
    refine ⟨hback, ?_⟩
    split
    · exact hback
    · exact hscreen
  · obtain ⟨win, hwin⟩ := Option.isSome_iff_exists.mp (O.windows layer hmem)
    have A : Drawn lm ⟨layer.pos, win.size⟩ := D.drawn (D.window layer hmem win hwin) (D.pos layer hmem)
    rw [hdrop]
    simp only [O.deref_address hmem, hwin, Option.bind_eq_bind, Option.bind_some]
    refine ⟨⟨layer.pos, win.size⟩, _, (size_drawLayers _ _).trans D.size, rfl, fun p hp => ?_⟩
    have hpicture : layer.picture p = win.picture layer.pos p := by
      rw [Layer.picture, hwin, Option.bind_some]
    refine D.shownAt_display A hsolid hstack hp ?_
    cases hcolour : layer.picture p with
    | none => exact .inl (hshown p hp fun _ => hcolour)
    | some c =>
      refine .inr ⟨?_, .inl ?_⟩
      · by_contra hout
        rw [hpicture, LayerWindow.picture_eq_none hout] at hcolour
        cases hcolour
      · have haddress : lm.picture layer.address p = some c := by
          rw [picture, O.deref_address hmem, Option.bind_some, hcolour]
        rw [Painting.topmost_cons, haddress]
        cases Painting.topmost lm.picture above p <;> rfl

/-! ## Changing a layer -/

theorem deref_modify (h : lm.deref address = some layer) (hf : Keeps f) (a : Nat) :
    (lm.modify address f).deref a = if a = address then some (f layer) else lm.deref a := by
  rw [(find_modify hf a).1]
  split
  · rename_i ha
    rw [ha, h, Option.map_some, if_pos (deref_mem h).2]
  · rename_i ha
    cases ha' : lm.deref a with
    | none => rfl
    | some l =>
      have hne : l.address ≠ address := fun heq => ha ((deref_mem ha').2.symm.trans heq)
      rw [Option.map_some, if_neg hne]

theorem picture_modify (h : lm.deref address = some layer) (hf : Keeps f) (a : Nat) :
    (lm.modify address f).picture a p = if a = address then (f layer).picture p else lm.picture a p := by
  rw [picture, deref_modify h hf]
  split <;> rfl

theorem Displayable.modify (D : Displayable lm) (O : Owned lm) (h : lm.deref address = some layer)
    (hpos : (f layer).pos.IsInt) (hwin : ∀ win ∈ (f layer).window, win.Held) :
    Displayable (lm.modify address f) := by
  obtain ⟨hmem', haddress⟩ := deref_mem h
  have hlayer : ∀ l ∈ lm.layers, l.address = address → l = layer := fun l hl heq =>
    O.eq_of_address hmem' hl (heq.trans haddress.symm)
  refine ⟨D.screen, D.size, D.uninitialized, fun l hl => ?_, fun l hl => ?_⟩
  all_goals
    obtain ⟨l, hmem, rfl⟩ := List.mem_map.mp hl
    split
  · rename_i heq
    rw [hlayer l hmem heq]
    exact hpos
  · exact D.pos l hmem
  · rename_i heq
    rw [hlayer l hmem heq]
    exact hwin
  · exact D.window l hmem

theorem SolidBelow.modify (hsolid : lm.SolidBelow) (h : lm.deref address = some layer) (hf : Keeps f)
    (hwin : (∀ win ∈ layer.window, win.transparentColor = none) →
      ∀ win ∈ (f layer).window, win.transparentColor = none) : (lm.modify address f).SolidBelow := by
  intro a ha l hl
  rw [Option.mem_def, deref_modify h hf] at hl
  split at hl
  · rename_i heq
    obtain rfl := Option.some.inj hl
    exact hwin (hsolid a ha layer (heq ▸ h))
  · exact hsolid a ha l hl

/-- Where the layer has no colour before and after, nothing changes. -/
theorem topmost_modify (h : lm.deref address = some layer) (hf : Keeps f)
    (hnone : address ∈ lm.layerStack → layer.picture p = none ∧ (f layer).picture p = none) :
    (lm.modify address f).topmost p = lm.topmost p := by
  refine Painting.topmost_congr fun a ha => ?_
  rw [picture_modify h hf]
  split
  · rename_i heq
    obtain ⟨hbefore, hafter⟩ := hnone (heq ▸ ha)
    rw [heq, hafter, picture, h, Option.bind_some, hbefore]
  · rfl

theorem Displayable.display (D : Displayable lm) {back : FrameBuffer} (hsize : back.size = lm.screen.size) :
    Displayable (lm.display area back) := ⟨D.held rfl, hsize, D.uninitialized, D.pos, D.window⟩

/-- `Move` and `MoveRelative`. -/
theorem Shown.moveBy (H : lm.Shown) (O : Owned lm) (D : Displayable lm) (hsolid : lm.SolidBelow)
    (h : lm.findLayer layerId = some layer) (newPos : Vector2D → Vector2D) (hpos : (newPos layer.pos).IsInt) :
    ∃ lm', lm.moveBy layerId newPos = some lm' ∧ lm'.Shown := by
  have hmem := (findLayer_mem h).1
  have hderef := O.deref_address hmem
  obtain ⟨win, hwin⟩ := Option.isSome_iff_exists.mp (O.windows layer hmem)
  have hheld := D.window layer hmem win hwin
  have hkeeps : Keeps fun layer => { layer with pos := newPos layer.pos } := fun _ => ⟨rfl, rfl, fun hw => hw⟩
  have O₁ := O.modify layer.address hkeeps
  have D₁ : Displayable (lm.modify layer.address fun layer => { layer with pos := newPos layer.pos }) :=
    D.modify O hderef hpos (D.window layer hmem)
  have hsolid₁ := hsolid.modify hderef hkeeps fun hw => hw
  have htop (p : Vector2D) (hold : layer.picture p = none) (hnew : layer.address ∈ lm.layerStack →
      ({ layer with pos := newPos layer.pos } : Layer).picture p = none) :
      (lm.modify layer.address fun layer => { layer with pos := newPos layer.pos }).topmost p = lm.topmost p :=
    topmost_modify hderef hkeeps fun hin => ⟨hold, hnew hin⟩
  have hfind : (lm.modify layer.address fun layer => { layer with pos := newPos layer.pos }).findLayer layerId =
      some { layer with pos := newPos layer.pos } := by
    rw [(find_modify hkeeps layerId).2, h, Option.map_some, if_pos rfl]
  have hstack : (lm.modify layer.address fun layer => { layer with pos := newPos layer.pos }).layerStack =
      lm.layerStack := rfl
  have hback : (lm.modify layer.address fun layer => { layer with pos := newPos layer.pos }).backBuffer =
      lm.backBuffer := rfl
  have hscreen : (lm.modify layer.address fun layer => { layer with pos := newPos layer.pos }).screen =
      lm.screen := rfl
  rw [LayerManager.moveBy, h]
  simp only [hwin, Option.bind_eq_bind, Option.bind_some]
  generalize lm.modify layer.address (fun layer => { layer with pos := newPos layer.pos }) = lm₁ at *
  -- first the old area is drawn
  have A : Drawn lm₁ ⟨layer.pos, win.size⟩ := D₁.drawn hheld (D.pos layer hmem)
  have hsize : (lm₁.drawLayers ⟨layer.pos, win.size⟩ lm₁.layerStack lm₁.backBuffer).size = lm₁.screen.size :=
    (size_drawLayers _ _).trans D₁.size
  obtain ⟨area, back, -, hdraw, H'⟩ := drawAll_shown (O₁.congr rfl rfl : Owned (lm₁.draw ⟨layer.pos, win.size⟩))
    (D₁.display hsize) hsolid₁ hfind fun p hp hnone => by
      refine D₁.shownAt_display A hsolid₁ (List.nil_append _).symm hp ?_
      by_cases hold : p ∈ (⟨layer.pos, win.size⟩ : Rectangle)
      · exact .inr ⟨hold, .inr rfl⟩
      · refine .inl fun c hc => ?_
        have hbefore : layer.picture p = none := by
          rw [Layer.picture, hwin, Option.bind_some, LayerWindow.picture_eq_none hold]
        rw [htop p hbefore fun hin => hnone (hstack ▸ hin)] at hc
        rw [hback, hscreen]
        exact H p (hscreen ▸ hp) c hc
  exact ⟨_, hdraw, H'⟩

/-! ## Other orders -/

/-- A layer may have got another place in the stack; the others are in the same order, and nothing is drawn. -/
structure Restacked (lm lm' : LayerManager) (address : Nat) : Prop where
  layers : lm'.layers = lm.layers
  screen : lm'.screen = lm.screen
  backBuffer : lm'.backBuffer = lm.backBuffer
  uninitialized : lm'.uninitialized = lm.uninitialized
  erase : lm'.layerStack.erase address = lm.layerStack.erase address
  mem : address ∈ lm'.layerStack ∨ lm'.layerStack = lm.layerStack

theorem Restacked.refl (lm : LayerManager) (address : Nat) : Restacked lm lm address :=
  ⟨rfl, rfl, rfl, rfl, rfl, .inr rfl⟩

theorem Restacked.displayable (R : Restacked lm lm' address) (D : Displayable lm) : Displayable lm' := by
  obtain ⟨hlayers, hscreen, hback, huninitialized, -, -⟩ := R
  constructor
  · exact hscreen ▸ D.screen
  · rw [hback, hscreen]
    exact D.size
  · exact huninitialized ▸ D.uninitialized
  · exact hlayers ▸ D.pos
  · exact hlayers ▸ D.window

/-- Where the layer has no colour its place makes no difference. -/
theorem Restacked.shownAt (R : Restacked lm lm' address)
    (hnone : address ∈ lm'.layerStack → lm.picture address p = none) (H : lm.ShownAt p) : lm'.ShownAt p := by
  have hpicture : lm'.picture = lm.picture := by
    funext a p
    rw [picture, picture, (find_congr R.layers).1]
  intro c hc
  rw [R.backBuffer, R.screen]
  refine H c ?_
  rw [topmost, hpicture] at hc
  rcases R.mem with hin | hsame
  · rw [← Painting.topmost_erase (hnone hin), R.erase, Painting.topmost_erase (hnone hin)] at hc
    exact hc
  · rw [hsame] at hc
    exact hc

theorem upDown_buffers (newHeight : Int) : (lm.upDown layerId newHeight).screen = lm.screen ∧
    (lm.upDown layerId newHeight).backBuffer = lm.backBuffer ∧
    (lm.upDown layerId newHeight).uninitialized = lm.uninitialized := by
  simp only [upDown]
  split
  · exact ⟨rfl, rfl, rfl⟩
  · split <;> exact ⟨rfl, rfl, rfl⟩

/-- The layer that is activated goes below the mouse layer. -/
theorem restacked_raise (O : Owned lm) (h : lm.findLayer layerId = some layer) {mouse : Nat}
    (hmouse : lm.findLayer mouse = some m) {rest : List Nat} (hstack : lm.layerStack = rest ++ [m.address])
    (hne : layer.address ≠ m.address) : Restacked lm (lm.raise layerId mouse) layer.address ∧
      Owned (lm.raise layerId mouse) ∧ ∃ rest', (lm.raise layerId mouse).layerStack = rest' ++ [m.address] := by
  have herase : lm.layerStack.erase layer.address = rest.erase layer.address ++ [m.address] := by
    rw [hstack, erase_concat_of_ne hne]
  obtain ⟨hraised, hlayers, O'⟩ := raise_spec O h hmouse herase
  have hnot : layer.address ∉ rest.erase layer.address :=
    (List.nodup_append.mp (hstack ▸ O.nodup)).1.not_mem_erase
  obtain ⟨hscreen, hback, huninitialized⟩ := @upDown_buffers lm layerId 0
  obtain ⟨hscreen', hback', huninitialized'⟩ :=
    @upDown_buffers (lm.upDown layerId 0) layerId ((lm.upDown layerId 0).getHeight mouse - 1)
  refine ⟨⟨hlayers, hscreen'.trans hscreen, hback'.trans hback, huninitialized'.trans huninitialized, ?_, .inl ?_⟩,
    O', rest.erase layer.address ++ [layer.address], ?_⟩
  · rw [hraised, herase, List.erase_append_right _ hnot, List.erase_cons_head]
  · rw [hraised]
    exact List.mem_append_right _ List.mem_cons_self
  · rw [hraised, List.append_assoc]
    rfl

end LayerManager

/-! ## Titles -/

namespace LayerWindow

variable {win : LayerWindow} {pos : Vector2D} {active : Bool}

theorem setActive_titlePixels (active : Bool) : (win.setActive active).titlePixels = win.titlePixels := by
  rw [setActive]
  induction win.titlePixels active generalizing win with
  | nil => rfl
  | cons px pixels ih => exact ih

/-- Drawing the title colours no pixel anew: an opaque window has a colour in all of its pixels, and a transparent
one has no title. -/
theorem picture_setActive (htitle : win.transparentColor ≠ none → win.titlePixels active = [])
    (h : (win.setActive active).picture pos p = none) : win.picture pos p = none := by
  by_cases hsolid : win.transparentColor = none
  · by_contra hsome
    have hmem : p ∈ (⟨pos, win.size⟩ : Rectangle) := by
      by_contra hout
      exact hsome (picture_eq_none hout)
    have hcolour := @isSome_picture (win.setActive active) pos p (by rwa [setActive_size])
      ((win.setActive_toWindow active).2.trans hsolid)
    rw [h] at hcolour
    cases hcolour
  · rwa [setActive, htitle hsolid] at h

theorem Held.setActive (h : win.Held) (active : Bool) : (win.setActive active).Held := by
  rwa [Held, (win.setActive_toWindow active).1]

end LayerWindow

namespace LayerManager

/-- The title of the window of a layer is drawn to the window. -/
def titled (lm : LayerManager) (layerId : Nat) (active : Bool) : LayerManager :=
  match lm.findLayer layerId with
  | none => lm
  | some layer =>
    match layer.window with
    | none => lm
    | some win => lm.modify layer.address fun layer => { layer with window := some (win.setActive active) }

theorem titled_eq {win : LayerWindow} (h : lm.findLayer layerId = some layer) (hwin : layer.window = some win)
    (active : Bool) : lm.titled layerId active =
      lm.modify layer.address fun layer => { layer with window := some (win.setActive active) } := by
  rw [titled, h]
  simp only [hwin]

/-- The windows with a transparent colour are plain ones, of the layer of the mouse. -/
def OnlyMouse (lm : LayerManager) (mouse : Nat) : Prop :=
  ∀ layer ∈ lm.layers, ∀ win ∈ layer.window, win.transparentColor ≠ none →
    layer.id = mouse ∧ ∀ active, win.titlePixels active = []

/-- The stack has the layer of the mouse on top, and no other transparent one. -/
theorem OnlyMouse.solidBelow {mouse : Nat} (M : lm.OnlyMouse mouse) (O : Owned lm)
    (hmouse : lm.findLayer mouse = some m) {rest : List Nat} (hstack : lm.layerStack = rest ++ [m.address]) :
    lm.SolidBelow := by
  intro a ha layer hlayer win hwin
  by_contra htransparent
  rw [hstack, List.dropLast_concat] at ha
  obtain ⟨layer', hderef, hfind⟩ := O.owned a (hstack ▸ List.mem_append_left _ ha)
  obtain rfl := Option.some.inj (hderef.symm.trans hlayer)
  rw [(M layer' (deref_mem hlayer).1 win hwin htransparent).1, hmouse] at hfind
  obtain rfl := Option.some.inj hfind
  rw [← (deref_mem hlayer).2] at ha
  exact O.top_notMem hstack ha

theorem Displayable.titled (D : Displayable lm) (O : Owned lm) (h : lm.findLayer layerId = some layer)
    {win : LayerWindow} (hwin : layer.window = some win) (active : Bool) :
    Displayable (lm.modify layer.address fun layer => { layer with window := some (win.setActive active) }) := by
  have hmem := (findLayer_mem h).1
  refine D.modify O (O.deref_address hmem) (D.pos layer hmem) fun win' hwin' => ?_
  obtain rfl := Option.some.inj hwin'
  exact (D.window layer hmem win hwin).setActive active

theorem OnlyMouse.titled {mouse : Nat} (M : lm.OnlyMouse mouse) (O : Owned lm)
    (h : lm.findLayer layerId = some layer) {win : LayerWindow} (hwin : layer.window = some win) (active : Bool) :
    (lm.modify layer.address fun layer => { layer with window := some (win.setActive active) }).OnlyMouse mouse := by
  have hmem := (findLayer_mem h).1
  intro l hl win' hwin' htransparent
  obtain ⟨l, hmem', rfl⟩ := List.mem_map.mp hl
  split at hwin' <;> rename_i heq
  · obtain rfl := O.eq_of_address hmem hmem' heq
    obtain rfl := Option.some.inj hwin'
    rw [(win.setActive_toWindow active).2] at htransparent
    rw [if_pos rfl, LayerWindow.setActive_titlePixels]
    exact M l hmem win hwin htransparent
  · rw [if_neg heq]
    exact M l hmem' win' hwin' htransparent

end LayerManager

namespace Desktop

/-- A title is drawn, the layer may be raised, and then it and what lies above it are drawn. -/
theorem redraw_shown (O : Owned d.manager) (D : Displayable d.manager) {mouse : Nat}
    (M : d.manager.OnlyMouse mouse) (H : d.manager.Shown) (h : d.manager.findLayer layerId = some layer)
    {active : Bool} {raise : LayerManager → LayerManager} {lm₂ : LayerManager}
    (hraise : raise (d.manager.titled layerId active) = lm₂)
    (R : Restacked (d.manager.titled layerId active) lm₂ layer.address) (O₂ : Owned lm₂) (hsolid : lm₂.SolidBelow) :
    ∃ area back, back.size = lm₂.screen.size ∧ d.redraw layerId active raise = some (lm₂.display area back) ∧
      (lm₂.display area back).Shown := by
  have hmem := (findLayer_mem h).1
  have hderef := O.deref_address hmem
  obtain ⟨win, hwin⟩ := Option.isSome_iff_exists.mp (O.windows layer hmem)
  have hkeeps := keeps_setActive active win
  have htitled := titled_eq h hwin active
  rw [htitled] at hraise R
  have D₂ : Displayable lm₂ := R.displayable (D.titled O h hwin active)
  have hfind : lm₂.findLayer layerId = some { layer with window := some (win.setActive active) } := by
    rw [(find_congr R.layers).2.1, (find_modify hkeeps layerId).2, h, Option.map_some, if_pos rfl]
  obtain ⟨area, back, hsize, hdraw, H₂⟩ := drawAll_shown O₂ D₂ hsolid hfind fun p hp hnone => by
    refine R.shownAt (fun hin => ?_) fun c hc => ?_
    · rw [picture_modify hderef hkeeps, if_pos rfl]
      exact hnone hin
    · have hboth (hin : layer.address ∈ d.manager.layerStack) : layer.picture p = none ∧
          ({ layer with window := some (win.setActive active) } : Layer).picture p = none := by
        have hafter := hnone (R.mem.elim id fun hsame => hsame ▸ hin)
        refine ⟨?_, hafter⟩
        rw [Layer.picture, hwin, Option.bind_some]
        exact LayerWindow.picture_setActive (fun htransparent => (M layer hmem win hwin htransparent).2 active) hafter
      rw [topmost_modify hderef hkeeps hboth] at hc
      exact H p (R.screen ▸ hp) c hc
  refine ⟨area, back, hsize, ?_, H₂⟩
  rw [redraw, h]
  simp only [hwin, Option.bind_eq_bind, Option.bind_some, hraise, hdraw]

/-- The layers are well-formed and can be displayed, that of the mouse lies on top and is transparent, and no
other one is. -/
structure Layered (d : Desktop) : Prop where
  owned : Owned d.manager
  displayable : Displayable d.manager
  mouse : ∃ m rest, d.manager.findLayer d.mouseLayer = some m ∧ d.manager.layerStack = rest ++ [m.address] ∧
    ∀ win ∈ m.window, win.transparentColor ≠ none
  onlyMouse : d.manager.OnlyMouse d.mouseLayer
  active : d.activeLayer ≠ 0 → (d.manager.findLayer d.activeLayer).isSome

/-- The windows when the title of the active one has been drawn as that of an inactive one. -/
def dimmed (d : Desktop) : LayerManager :=
  if 0 < d.activeLayer then d.manager.titled d.activeLayer false else d.manager

/-- The first part of `Activate`. -/
theorem Layered.deactivate (L : Layered d) (H : d.manager.Shown) : ∃ lm, d.deactivate = some lm ∧
    Layered { d with manager := lm } ∧ lm.Shown ∧ lm.layers = d.dimmed.layers ∧
    lm.layerStack = d.manager.layerStack ∧ lm.screen.size = d.manager.screen.size ∧
    ∀ i layer, d.manager.findLayer i = some layer → ∃ layer', lm.findLayer i = some layer' ∧
      layer'.address = layer.address ∧ layer'.pos = layer.pos ∧ ∀ win' ∈ layer'.window, ∃ win ∈ layer.window,
        win'.size = win.size ∧ win'.transparentColor = win.transparentColor := by
  obtain ⟨m, rest, hm, hstack, htransparent⟩ := L.mouse
  rw [Desktop.deactivate, dimmed]
  by_cases hpos : 0 < d.activeLayer
  · obtain ⟨layer, h⟩ := Option.isSome_iff_exists.mp (L.active hpos.ne')
    have hmem := (findLayer_mem h).1
    obtain ⟨win, hwin⟩ := Option.isSome_iff_exists.mp (L.owned.windows layer hmem)
    have hkeeps := keeps_setActive false win
    have htitled := titled_eq h hwin false
    have O₁ := L.owned.modify layer.address hkeeps
    have M₁ := L.onlyMouse.titled L.owned h hwin false
    have hfind (i : Nat) {l : Layer} (hl : d.manager.findLayer i = some l) : ∃ l',
        (d.manager.modify layer.address fun layer => { layer with window := some (win.setActive false) }).findLayer i =
          some l' ∧ l'.address = l.address ∧ l'.pos = l.pos ∧ ∀ w' ∈ l'.window, ∃ w ∈ l.window,
        w'.size = w.size ∧ w'.transparentColor = w.transparentColor := by
      refine ⟨_, (find_modify hkeeps i).2.trans (congrArg _ hl), ?_⟩
      dsimp only
      split
      · rename_i heq
        obtain rfl := L.owned.eq_of_address hmem (findLayer_mem hl).1 heq
        refine ⟨rfl, rfl, fun w hw => ⟨win, hwin, ?_⟩⟩
        obtain rfl := Option.some.inj hw
        exact ⟨win.setActive_size false, (win.setActive_toWindow false).2⟩
      · exact ⟨rfl, rfl, fun w hw => ⟨w, hw, rfl, rfl⟩⟩
    obtain ⟨m', hm', hmaddr, -, hmwin⟩ := hfind _ hm
    have hsolid := M₁.solidBelow O₁ hm' (by rw [hmaddr]; exact hstack)
    rw [← htitled] at O₁ M₁ hsolid hm' hfind
    have D₁ := L.displayable.titled L.owned h hwin false
    rw [← htitled] at D₁
    have hstack₁ : (d.manager.titled d.activeLayer false).layerStack = d.manager.layerStack := by
      rw [htitled]
      rfl
    have hscreen₁ : (d.manager.titled d.activeLayer false).screen = d.manager.screen := by
      rw [htitled]
      rfl
    have hsize₁ : (d.manager.titled d.activeLayer false).screen.size = d.manager.screen.size := congrArg _ hscreen₁
    obtain ⟨area, back, hsize, hredraw, H'⟩ := @redraw_shown _ _ _ L.owned L.displayable _ L.onlyMouse H h false id
      (d.manager.titled d.activeLayer false) rfl (Restacked.refl _ _) O₁ hsolid
    refine ⟨_, (if_pos hpos).trans hredraw, ?_, H', by rw [if_pos hpos]; rfl, hstack₁,
      hsize₁, fun i l hl => hfind i hl⟩
    refine ⟨O₁.congr rfl rfl, D₁.display hsize, ⟨m', rest, hm', ?_, fun w hw => ?_⟩, M₁, fun hne => ?_⟩
    · rw [display_layerStack, hstack₁, hmaddr]
      exact hstack
    · obtain ⟨w₀, hw₀, -, hcolour⟩ := hmwin w hw
      rw [hcolour]
      exact htransparent w₀ hw₀
    · obtain ⟨l, hl⟩ := Option.isSome_iff_exists.mp (L.active hne)
      obtain ⟨l', hl', -⟩ := hfind _ hl
      exact Option.isSome_iff_exists.mpr ⟨l', hl'⟩
  · exact ⟨_, if_neg hpos, L, H, by rw [if_neg hpos], rfl, rfl, fun i l hl =>
      ⟨l, hl, rfl, rfl, fun w hw => ⟨w, hw, rfl, rfl⟩⟩⟩

/-- `Activate` of none. -/
theorem Layered.activate_zero (L : Layered d) (H : d.manager.Shown) : ∃ lm,
    d.activate 0 = some ⟨lm, 0, d.mouseLayer⟩ ∧
    Layered ⟨lm, 0, d.mouseLayer⟩ ∧ lm.Shown ∧ ∀ i layer, d.manager.findLayer i = some layer →
      ∃ layer', lm.findLayer i = some layer' ∧ layer'.pos = layer.pos ∧
        ∀ win' ∈ layer'.window, ∃ win ∈ layer.window, win'.size = win.size := by
  by_cases h0 : d.activeLayer = 0
  · refine ⟨d.manager, ?_, ⟨L.owned, L.displayable, L.mouse, L.onlyMouse, fun h => absurd rfl h⟩, H, fun i l hl =>
      ⟨l, hl, rfl, fun w hw => ⟨w, hw, rfl⟩⟩⟩
    rw [activate, if_pos h0, ← h0]
  · obtain ⟨lm, hlm, L', H', -, -, -, hfind⟩ := L.deactivate H
    refine ⟨lm, ?_, ⟨L'.owned, L'.displayable, L'.mouse, L'.onlyMouse, fun h => absurd rfl h⟩, H', fun i l hl => ?_⟩
    · rw [activate, if_neg h0, hlm]
      rfl
    · obtain ⟨l', hl', -, hpos, hwin⟩ := hfind i l hl
      refine ⟨l', hl', hpos, fun w hw => ?_⟩
      obtain ⟨w₀, hw₀, hsize, -⟩ := hwin w hw
      exact ⟨w₀, hw₀, hsize⟩

/-- `Activate` of a layer other than that of the mouse. -/
theorem Layered.activate_shown (L : Layered d) (H : d.manager.Shown) (hid : layerId ≠ 0)
    (hne : layerId ≠ d.mouseLayer) (h : (d.manager.findLayer layerId).isSome) :
    ∃ d', d.activate layerId = some d' ∧ d'.manager.Shown := by
  by_cases hactive : d.activeLayer = layerId
  · exact ⟨d, if_pos hactive, H⟩
  · obtain ⟨layer₀, h₀⟩ := Option.isSome_iff_exists.mp h
    obtain ⟨lm, hlm, L', H', -, -, -, hfind⟩ := L.deactivate H
    obtain ⟨layer, hlayer, -⟩ := hfind _ _ h₀
    obtain ⟨m, rest, hm, hstack, -⟩ := L'.mouse
    have hmem := (findLayer_mem hlayer).1
    obtain ⟨win, hwin⟩ := Option.isSome_iff_exists.mp (L'.owned.windows layer hmem)
    have hdiff : layer.address ≠ m.address := L'.owned.address_ne hlayer hm hne
    have hkeeps := keeps_setActive true win
    have htitled := titled_eq hlayer hwin true
    have O₁ := L'.owned.modify layer.address hkeeps
    have M₁ := L'.onlyMouse.titled L'.owned hlayer hwin true
    have hlayer₁ := (@find_modify lm layer.address _ hkeeps layerId).2
    have hm₁ := (@find_modify lm layer.address _ hkeeps d.mouseLayer).2
    rw [hlayer, Option.map_some, if_pos rfl] at hlayer₁
    rw [hm, Option.map_some, if_neg hdiff.symm] at hm₁
    rw [← htitled] at O₁ M₁ hlayer₁ hm₁
    have hstack₁ : (lm.titled layerId true).layerStack = rest ++ [m.address] := by
      rw [htitled]
      exact hstack
    obtain ⟨R, O₂, rest', hstack₂⟩ := restacked_raise O₁ hlayer₁ hm₁ hstack₁ hdiff
    have hm₂ : ((lm.titled layerId true).raise layerId d.mouseLayer).findLayer d.mouseLayer = some m := by
      rw [(find_congr R.layers).2.1]
      exact hm₁
    have M₂ : ((lm.titled layerId true).raise layerId d.mouseLayer).OnlyMouse d.mouseLayer :=
      fun l hl => M₁ l (R.layers ▸ hl)
    obtain ⟨lm', hredraw, H₂⟩ : ∃ lm', (⟨lm, layerId, d.mouseLayer⟩ : Desktop).redraw layerId true
        (·.raise layerId d.mouseLayer) = some lm' ∧ lm'.Shown := by
      obtain ⟨area, back, -, hredraw, H₂⟩ := @redraw_shown ⟨lm, layerId, d.mouseLayer⟩ _ _ L'.owned L'.displayable _
        L'.onlyMouse H' hlayer true (·.raise layerId d.mouseLayer) _ rfl R O₂ (M₂.solidBelow O₂ hm₂ hstack₂)
      exact ⟨_, hredraw, H₂⟩
    have hnew : (⟨lm, layerId, d.mouseLayer⟩ : Desktop).activateNew = some lm' := by
      rw [activateNew, if_pos (Nat.pos_of_ne_zero hid)]
      exact hredraw
    refine ⟨⟨lm', layerId, d.mouseLayer⟩, ?_, H₂⟩
    rw [activate, if_neg hactive, hlm, Option.bind_some]
    exact congrArg (Option.map _) hnew

theorem sublist_dropLast {l l' : List Nat} (h : l.Sublist l') : l.dropLast.Sublist l'.dropLast := by
  rw [← List.reverse_sublist, ← List.tail_reverse, ← List.tail_reverse]
  exact (List.reverse_sublist.mpr h).tail

/-- The layers that stay in the stack stay the same. -/
theorem deref_removeLayer (O : Owned lm) (h : lm.findLayer layerId = some layer) {a : Nat}
    (ha : a ∈ lm.layerStack.erase layer.address) : (lm.removeLayer layerId).deref a = lm.deref a := by
  obtain ⟨hne, ha⟩ := (List.Nodup.mem_erase_iff O.nodup).mp ha
  obtain ⟨l, hderef, hfind⟩ := O.owned a ha
  have hid : l.id ≠ layerId := by
    intro hid
    rw [hid, h] at hfind
    obtain rfl := Option.some.inj hfind
    exact hne (deref_mem hderef).2.symm
  exact (Owned.find_removeLayer hderef hid).trans hderef.symm

/-- `CloseLayer`. -/
theorem Layered.closeLayer_shown (L : Layered d) (H : d.manager.Shown) (layerId : Nat) :
    ∃ err d', d.closeLayer layerId = some (err, d') ∧ d'.manager.Shown := by
  rw [closeLayer]
  cases h₀ : d.manager.findLayer layerId with
  | none => exact ⟨_, _, rfl, H⟩
  | some layer₀ =>
    obtain ⟨win₀, hwin₀⟩ := Option.isSome_iff_exists.mp (L.owned.windows layer₀ (findLayer_mem h₀).1)
    obtain ⟨lm, hactivate, L', H', hfind⟩ := L.activate_zero H
    obtain ⟨layer, h, hpos, hsize⟩ := hfind _ _ h₀
    have hmem := (findLayer_mem h).1
    obtain ⟨win, hwin⟩ := Option.isSome_iff_exists.mp (L'.owned.windows layer hmem)
    obtain ⟨win₀', hwin₀', hsize⟩ := hsize win hwin
    obtain rfl := Option.some.inj (hwin₀.symm.trans hwin₀')
    obtain ⟨m, rest, hm, hstack, -⟩ := L'.mouse
    have hsolid := L'.onlyMouse.solidBelow L'.owned hm hstack
    have D := L'.displayable
    have O : Owned lm := L'.owned
    simp only [hwin₀, Option.bind_eq_bind, Option.bind_some, hactivate, ← hpos, ← hsize]
    refine ⟨_, _, rfl, fun p hp => ?_⟩
    have hremoved : (lm.removeLayer layerId).layerStack = lm.layerStack.erase layer.address := by
      rw [removeLayer, hide_layerStack, findAddress_of_find h]
    have hsub : (lm.removeLayer layerId).layers.Sublist lm.layers := List.filter_sublist
    have D₂ : Displayable (lm.removeLayer layerId) :=
      ⟨D.screen, D.size, D.uninitialized, fun l hl => D.pos l (hsub.subset hl),
        fun l hl => D.window l (hsub.subset hl)⟩
    have hsolid₂ : (lm.removeLayer layerId).SolidBelow := by
      intro a ha l hl
      rw [hremoved] at ha
      rw [deref_removeLayer O h (List.dropLast_subset _ ha)] at hl
      exact hsolid a ((sublist_dropLast List.erase_sublist).subset ha) l hl
    have A : Drawn (lm.removeLayer layerId) ⟨layer.pos, win.size⟩ :=
      D₂.drawn (D.window layer hmem win hwin) (D.pos layer hmem)
    refine D₂.shownAt_display A hsolid₂ (List.nil_append _).symm hp ?_
    by_cases harea : p ∈ (⟨layer.pos, win.size⟩ : Rectangle)
    · exact .inr ⟨harea, .inr rfl⟩
    · refine .inl fun c hc => H' p hp c ?_
      have hnone : lm.picture layer.address p = none := by
        rw [picture, O.deref_address hmem, Option.bind_some, Layer.picture, hwin, Option.bind_some,
          LayerWindow.picture_eq_none harea]
      rw [topmost, hremoved] at hc
      rw [topmost, ← Painting.topmost_erase hnone, Option.mem_def, ← hc]
      refine Painting.topmost_congr fun a ha => ?_
      rw [picture, picture, deref_removeLayer O h ha]

/-! ## The layer of the mouse -/

/-- A window without a title stays as it is. -/
theorem titled_plain (O : Owned lm) (h : lm.findLayer layerId = some layer) {win : LayerWindow}
    (hwin : layer.window = some win) {active : Bool} (hplain : win.titlePixels active = []) :
    (lm.modify layer.address fun layer => { layer with window := some (win.setActive active) }) = lm := by
  have hsame : win.setActive active = win := by
    rw [LayerWindow.setActive, hplain]
    rfl
  have hlayers : (lm.layers.map fun l =>
      if l.address = layer.address then { l with window := some (win.setActive active) } else l) = lm.layers := by
    refine (List.map_congr_left fun l hl => ?_).trans (List.map_id' _)
    split
    · rename_i heq
      obtain rfl := O.eq_of_address (findLayer_mem h).1 hl heq
      rw [hsame, ← hwin]
    · rfl
  rw [LayerManager.modify, hlayers]

/-- `Activate` gives the layer of the mouse a height below its own one, so that it is hidden. -/
theorem raise_mouse (O : Owned lm) (h : lm.findLayer layerId = some m) {rest : List Nat}
    (hstack : lm.layerStack = rest ++ [m.address]) : (lm.raise layerId layerId).layerStack = rest ∧
      (lm.raise layerId layerId).layers = lm.layers ∧ (lm.raise layerId layerId).screen = lm.screen ∧
      (lm.raise layerId layerId).backBuffer = lm.backBuffer ∧
      (lm.raise layerId layerId).uninitialized = lm.uninitialized := by
  have hnot : m.address ∉ rest := O.top_notMem hstack
  have hbottom : (lm.upDown layerId 0).layerStack = m.address :: rest := by
    rw [upDown_zero h, hstack, List.erase_append_right _ hnot, List.erase_cons_head, List.append_nil]
  have O₁ := O.upDown h (le_refl 0)
  have hfind : (lm.upDown layerId 0).findLayer layerId = some m := by
    rw [(find_congr (upDown_layers 0)).2.1]
    exact h
  have hheight : (lm.upDown layerId 0).getHeight layerId = 0 := by
    have hself := (O₁.hasId_iff hfind (hbottom ▸ List.mem_cons_self)).mpr rfl
    rw [getHeight, hbottom, List.findIdx?_cons, hself]
    rfl
  have hhidden : lm.raise layerId layerId = (lm.upDown layerId 0).hide layerId := by
    rw [raise, hheight, upDown]
    exact if_pos (by decide)
  obtain ⟨hscreen, hback, huninitialized⟩ := @upDown_buffers lm layerId 0
  rw [hhidden]
  refine ⟨?_, upDown_layers 0, hscreen, hback, huninitialized⟩
  rw [hide_layerStack, findAddress_of_find hfind, hbottom, List.erase_cons_head]

/-- When the top layer has been taken from the stack and nothing has been drawn, what is shown is right if that
layer cannot be told from what lies below it. -/
theorem shown_display_iff (D : Displayable lm) (H : lm.Shown) {rest : List Nat}
    (hstack : lm.layerStack = rest ++ [address]) (hstack' : lm'.layerStack = rest)
    (hlayers : lm'.layers = lm.layers) (hscreen : lm'.screen = lm.screen) :
    (lm'.display lm.uninitialized lm.backBuffer).Shown ↔ ∀ p ∈ lm.screen.outline, ∀ c ∈ lm.picture address p,
      ∀ c' ∈ Painting.topmost lm.picture rest p, c = c' := by
  have hpicture : lm'.picture = lm.picture := by
    funext a p
    rw [picture, picture, (find_congr hlayers).1]
  have houtline : (lm'.display lm.uninitialized lm.backBuffer).screen.outline = lm.screen.outline := by
    rw [← hscreen]
    rfl
  have hpixel (p : Vector2D) : (lm'.display lm.uninitialized lm.backBuffer).screen.pixel p =
      if p ∈ lm.screen.outline.inter lm.uninitialized then lm.backBuffer.pixel p else lm.screen.pixel p := by
    rw [← D.display_pixel D.uninitialized, LayerManager.display, LayerManager.display, hscreen]
  have hbelow (p : Vector2D) : (lm'.display lm.uninitialized lm.backBuffer).topmost p =
      Painting.topmost lm.picture rest p := by
    rw [← hpicture, ← hstack']
    rfl
  have htop (p : Vector2D) : lm.topmost p =
      (lm.picture address p).or (Painting.topmost lm.picture rest p) := by
    have hone : Painting.topmost lm.picture [address] p = lm.picture address p := List.findSome?_singleton
    rw [topmost, hstack, Painting.topmost_append, hone]
  constructor
  · intro H' p hp c hc c' hc'
    have hback := (H' p (houtline ▸ hp) c' ((hbelow p).trans hc')).1
    have hmouse := (H p hp c (by rw [htop, Option.mem_def.mp hc]; rfl)).1
    exact hmouse.symm.trans hback
  · intro hsame p hp c hc
    rw [houtline] at hp
    rw [hbelow] at hc
    have hshown : lm.backBuffer.pixel p = c ∧ lm.screen.pixel p = c := by
      refine H p hp c ?_
      rw [htop]
      cases hmouse : lm.picture address p with
      | none => exact hc
      | some c' => exact congrArg some (hsame p hp c' hmouse c hc)
    rw [hpixel]
    refine ⟨hshown.1, ?_⟩
    split
    · exact hshown.1
    · exact hshown.2

/-- In no pixel of the screen can the picture of the mouse be told from what lies below it. -/
def Unseen (d : Desktop) : Prop :=
  ∀ p ∈ d.manager.screen.outline, ∀ c ∈ d.dimmed.picture (d.manager.findAddress d.mouseLayer) p,
    ∀ c' ∈ Painting.topmost d.dimmed.picture d.manager.layerStack.dropLast p, c = c'

/-- `Activate` of the layer of the mouse hides it and leaves its picture on the screen. -/
theorem Layered.activate_mouse (L : Layered d) (H : d.manager.Shown) (h0 : d.mouseLayer ≠ 0)
    (hactive : d.activeLayer ≠ d.mouseLayer) :
    ∃ d', d.activate d.mouseLayer = some d' ∧ (d'.manager.Shown ↔ d.Unseen) := by
  obtain ⟨lm, hlm, L', H', hlayers, hstack₀, hsize, hfind₀⟩ := L.deactivate H
  obtain ⟨m₀, rest₀, hm₀, hrest₀, -⟩ := L.mouse
  obtain ⟨m', hm', haddress, -⟩ := hfind₀ _ _ hm₀
  obtain ⟨m, rest, hm, hstack, htransparent⟩ := L'.mouse
  obtain rfl := Option.some.inj (hm.symm.trans hm')
  have hmem := (findLayer_mem hm).1
  obtain ⟨win, hwin⟩ := Option.isSome_iff_exists.mp (L'.owned.windows m hmem)
  have hplain := (L'.onlyMouse m hmem win hwin (htransparent win hwin)).2 true
  have O : Owned lm := L'.owned
  have D : Displayable lm := L'.displayable
  have hm : lm.findLayer d.mouseLayer = some m := hm
  have hstack : lm.layerStack = rest ++ [m.address] := hstack
  obtain ⟨hstack₂, hlayers₂, hscreen₂, hback₂, huninitialized₂⟩ := raise_mouse O hm hstack
  have hnot : m.address ∉ rest := O.top_notMem hstack
  have O₂ : Owned (lm.raise d.mouseLayer d.mouseLayer) := by
    refine O.restack hlayers₂ (O.identified.restack hlayers₂ ?_ fun a ha => ?_)
    · rw [hstack₂]
      exact (List.nodup_append.mp (hstack ▸ O.nodup)).1
    · rw [hstack₂] at ha
      exact .inl (hstack ▸ List.mem_append_left _ ha)
  have hm₂ : (lm.raise d.mouseLayer d.mouseLayer).findLayer d.mouseLayer = some m := by
    rw [(find_congr hlayers₂).2.1]
    exact hm
  have hdraw : (lm.raise d.mouseLayer d.mouseLayer).drawAll d.mouseLayer =
      some ((lm.raise d.mouseLayer d.mouseLayer).display lm.uninitialized lm.backBuffer) := by
    rcases dropWhile_hasId O₂ hm₂ with ⟨-, hdrop⟩ | ⟨below, above, hsplit, -⟩
    · rw [drawAll, drawLayer, hdrop, huninitialized₂, hback₂]
    · refine absurd ?_ hnot
      rw [← hstack₂, hsplit]
      exact List.mem_append_right _ List.mem_cons_self
  have hredraw : (⟨lm, d.mouseLayer, d.mouseLayer⟩ : Desktop).activateNew =
      some ((lm.raise d.mouseLayer d.mouseLayer).display lm.uninitialized lm.backBuffer) := by
    rw [activateNew, if_pos (Nat.pos_of_ne_zero h0), redraw]
    simp only [hm, hwin, Option.bind_eq_bind, Option.bind_some, titled_plain O hm hwin hplain, hdraw]
  refine ⟨⟨(lm.raise d.mouseLayer d.mouseLayer).display lm.uninitialized lm.backBuffer, d.mouseLayer, d.mouseLayer⟩,
    ?_, ?_⟩
  · rw [activate, if_neg hactive, hlm, Option.bind_some]
    exact congrArg (Option.map _) hredraw
  · have hpicture : d.dimmed.picture = lm.picture := by
      funext a p
      rw [picture, picture, (find_congr hlayers).1]
    have hrest : d.manager.layerStack.dropLast = rest := by
      rw [← hstack₀, hstack, List.dropLast_concat]
    rw [Unseen, hpicture, hrest, findAddress_of_find hm₀, ← haddress, ← outline_eq hsize]
    exact shown_display_iff D H' hstack hstack₂ hlayers₂ hscreen₂

end Desktop

/-! ## Every call -/

/-- The calls that redraw a part of the screen. -/
inductive LayerCall where
  | move (layerId : Nat) (newPos : Vector2D)
  | moveRelative (layerId : Nat) (posDiff : Vector2D)
  | activate (layerId : Nat)
  | closeLayer (layerId : Nat)

namespace Desktop

def call (d : Desktop) : LayerCall → Option Desktop
  | .move layerId newPos => (d.manager.move layerId newPos).map fun manager => { d with manager }
  | .moveRelative layerId posDiff => (d.manager.moveRelative layerId posDiff).map fun manager => { d with manager }
  | .activate layerId => d.activate layerId
  | .closeLayer layerId => (d.closeLayer layerId).map Prod.snd

/-- The layer exists where the code does not check it, and the arguments are of the type `int`. -/
def Callable (d : Desktop) : LayerCall → Prop
  | .move layerId newPos => (d.manager.findLayer layerId).isSome ∧ newPos.IsInt
  | .moveRelative layerId _ => (d.manager.findLayer layerId).isSome
  | .activate layerId => layerId = 0 ∨ (d.manager.findLayer layerId).isSome
  | .closeLayer _ => True

/-- The layer of the mouse is not activated, or it is active, or it cannot be seen. -/
def KeepsMouse (d : Desktop) : LayerCall → Prop
  | .activate layerId => layerId ≠ 0 → layerId = d.mouseLayer → d.activeLayer ≠ layerId → d.Unseen
  | _ => True

/-- After a call the screen and `back_buffer_` show what they would if all layers were drawn, unless it hides the
layer of the mouse. -/
theorem Layered.call_shown_iff {call : LayerCall} (L : Layered d) (H : d.manager.Shown) (h : d.Callable call) :
    (∃ d', d.call call = some d' ∧ d'.manager.Shown) ↔ d.KeepsMouse call := by
  obtain ⟨m, rest, hm, hstack, -⟩ := L.mouse
  have hsolid := L.onlyMouse.solidBelow L.owned hm hstack
  cases call with
  | move layerId newPos =>
    obtain ⟨layer, hlayer⟩ := Option.isSome_iff_exists.mp h.1
    obtain ⟨lm', hmove, H'⟩ := H.moveBy L.owned L.displayable hsolid hlayer (fun _ => newPos) h.2
    exact iff_of_true ⟨_, congrArg (Option.map _) hmove, H'⟩ trivial
  | moveRelative layerId posDiff =>
    obtain ⟨layer, hlayer⟩ := Option.isSome_iff_exists.mp h
    obtain ⟨lm', hmove, H'⟩ := H.moveBy L.owned L.displayable hsolid hlayer (· + posDiff)
      (Vector2D.isInt_add layer.pos posDiff)
    exact iff_of_true ⟨_, congrArg (Option.map _) hmove, H'⟩ trivial
  | activate layerId =>
    by_cases h0 : layerId = 0
    · obtain ⟨lm, hactivate, -, H', -⟩ := L.activate_zero H
      rw [h0]
      exact iff_of_true ⟨_, hactivate, H'⟩ fun hne => absurd rfl hne
    have hlayer : (d.manager.findLayer layerId).isSome := h.resolve_left h0
    by_cases hmouse : layerId = d.mouseLayer
    · obtain rfl := hmouse
      by_cases hactive : d.activeLayer = d.mouseLayer
      · exact iff_of_true ⟨d, if_pos hactive, H⟩ fun _ _ hne => absurd hactive hne
      obtain ⟨d', hactivate, hiff⟩ := L.activate_mouse H h0 hactive
      constructor
      · rintro ⟨d'', hactivate', H'⟩ - - -
        obtain rfl := Option.some.inj (hactivate.symm.trans hactivate')
        exact hiff.mp H'
      · intro hkeeps
        exact ⟨d', hactivate, hiff.mpr (hkeeps h0 rfl hactive)⟩
    · exact iff_of_true (L.activate_shown H h0 hmouse hlayer) fun _ heq => absurd heq hmouse
  | closeLayer layerId =>
    obtain ⟨err, d', hclose, H'⟩ := L.closeLayer_shown H layerId
    exact iff_of_true ⟨d', congrArg (Option.map Prod.snd) hclose, H'⟩ trivial

/-- A window of one pixel. -/
def pixelWindow (c : PixelColor) (transparentColor : Option PixelColor) : LayerWindow where
  width := 1
  height := 1
  width_nonneg := by decide
  width_lt := by decide
  height_nonneg := by decide
  height_lt := by decide
  pixels_le := by decide
  toplevel := false
  transparentColor := transparentColor
  data := fun _ => c
  shadowBuffer := fun _ => c
  titlePixels := fun _ => []

def white : PixelColor := ⟨255, 255, 255⟩

def black : PixelColor := ⟨0, 0, 0⟩

/-- A screen of one pixel, with a black background, console and main window and a white mouse over them. The main
window is active, and the text window has been closed. -/
def pixelDesktop : Desktop where
  manager :=
    { screen := ⟨1, 1, fun _ => white⟩
      backBuffer := ⟨1, 1, fun _ => white⟩
      layers := [⟨1, 1, ⟨0, 0⟩, some (pixelWindow black none), false⟩,
        ⟨2, 2, ⟨0, 0⟩, some (pixelWindow black none), false⟩, ⟨3, 3, ⟨0, 0⟩, some (pixelWindow black none), true⟩,
        ⟨5, 5, ⟨0, 0⟩, some (pixelWindow white (some ⟨0, 0, 1⟩)), false⟩]
      layerStack := [1, 2, 3, 5]
      latestId := 5
      uninitialized := ⟨⟨0, 0⟩, ⟨0, 0⟩⟩ }
  activeLayer := 3
  mouseLayer := 5

theorem pixelWindow_held (c : PixelColor) (transparentColor : Option PixelColor) :
    (pixelWindow c transparentColor).Held := by
  rw [LayerWindow.Held]
  change (7 : Int) ≤ 64 * 512 * 4096
  decide

theorem pixelDesktop_layered : Layered pixelDesktop where
  owned := by
    refine ⟨by decide, by decide, by decide, by decide, fun address ha => ?_⟩
    simp only [pixelDesktop, List.mem_cons, List.not_mem_nil, or_false] at ha
    rcases ha with rfl | rfl | rfl | rfl
    all_goals exact ⟨_, rfl, rfl⟩
  displayable := by
    refine ⟨⟨by decide, by decide, by decide⟩, rfl, Vector2D.isInt_zero, ?_, ?_⟩
    all_goals
      simp only [pixelDesktop, List.forall_mem_cons, Option.mem_def, Option.some.injEq, forall_eq']
    · exact ⟨Vector2D.isInt_zero, Vector2D.isInt_zero, Vector2D.isInt_zero, Vector2D.isInt_zero, by simp⟩
    · exact ⟨pixelWindow_held _ _, pixelWindow_held _ _, pixelWindow_held _ _, pixelWindow_held _ _, by simp⟩
  mouse := ⟨_, [1, 2, 3], rfl, rfl, fun win hwin => by
    obtain rfl := Option.some.inj hwin
    exact Option.some_ne_none _⟩
  onlyMouse := by
    simp only [LayerManager.OnlyMouse, pixelDesktop, List.forall_mem_cons, Option.mem_def, Option.some.injEq,
      forall_eq']
    exact ⟨fun h => absurd rfl h, fun h => absurd rfl h, fun h => absurd rfl h,
      fun _ => ⟨trivial, fun _ => rfl⟩, by simp⟩
  active _ := rfl

theorem pixelDesktop_outline {p : Vector2D} (hp : p ∈ pixelDesktop.manager.screen.outline) : p = ⟨0, 0⟩ := by
  obtain ⟨⟨hx, hx'⟩, hy, hy'⟩ : (0 ≤ p.x ∧ p.x < 0 + 1) ∧ 0 ≤ p.y ∧ p.y < 0 + 1 := hp
  refine Vector2D.ext ?_ ?_
  all_goals dsimp only; omega

theorem pixelDesktop_covered : pixelDesktop.manager.Covered := by
  refine ⟨1, [2, 3, 5], _, _, rfl, rfl, rfl, rfl, fun p hp => ?_⟩
  obtain rfl := pixelDesktop_outline hp
  exact by decide

theorem pixelDesktop_shown : pixelDesktop.manager.Shown := by
  refine pixelDesktop_covered.shown_iff.mpr fun p hp => ?_
  obtain rfl := pixelDesktop_outline hp
  exact ⟨rfl, rfl⟩

/-- The mouse is moved, and the console is activated. -/
theorem call_shown_pixel :
    (∃ d', pixelDesktop.call (.move 5 ⟨-7, 3⟩) = some d' ∧ d'.manager.Shown) ∧
    ∃ d', pixelDesktop.call (.activate 2) = some d' ∧ d'.manager.Shown := by
  have hmove : pixelDesktop.Callable (.move 5 ⟨-7, 3⟩) := ⟨rfl, ⟨by decide, by decide⟩, by decide, by decide⟩
  have hactivate : pixelDesktop.Callable (.activate 2) := .inr rfl
  have hother : pixelDesktop.KeepsMouse (.activate 2) := fun _ h => absurd h (by decide)
  exact ⟨(pixelDesktop_layered.call_shown_iff pixelDesktop_shown hmove).mpr trivial,
    (pixelDesktop_layered.call_shown_iff pixelDesktop_shown hactivate).mpr hother⟩

/-- `Activate` of the layer of the mouse takes it from the stack, but it stays on the screen. -/
theorem activate_mouse_stale : Layered pixelDesktop ∧ pixelDesktop.manager.Covered ∧ pixelDesktop.manager.Shown ∧
    pixelDesktop.Callable (.activate 5) ∧ ∃ d', pixelDesktop.call (.activate 5) = some d' ∧
      d'.manager.topmost ⟨0, 0⟩ = some black ∧ d'.manager.screen.pixel ⟨0, 0⟩ = white ∧ ¬d'.manager.Shown := by
  have hcall : ((pixelDesktop.call (.activate 5)).map fun d' =>
      (decide ((⟨0, 0⟩ : Vector2D) ∈ d'.manager.screen.outline), d'.manager.topmost ⟨0, 0⟩,
        d'.manager.screen.pixel ⟨0, 0⟩)) = some (true, some black, white) := by decide +kernel
  obtain ⟨d', hd', hafter⟩ := Option.map_eq_some_iff.mp hcall
  simp only [Prod.mk.injEq, decide_eq_true_eq] at hafter
  obtain ⟨hmem, htop, hpixel⟩ := hafter
  refine ⟨pixelDesktop_layered, pixelDesktop_covered, pixelDesktop_shown, .inr rfl, d', hd', htop, hpixel,
    fun H => ?_⟩
  have hblack := (H ⟨0, 0⟩ hmem black htop).2
  rw [hpixel] at hblack
  exact absurd hblack (by decide)

end Desktop

end MikanOS
