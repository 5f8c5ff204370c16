import MikanOS.Graphics.MouseMessages

/-! # The coordinates of the mouse

`OnInterrupt` keeps the cursor on the screen in two steps, and the messages take their coordinates from
between the two. They leave the screen at the left and the upper edge while the cursor does not. -/

namespace MikanOS

namespace Mouse

variable (s : Mouse)

/-- The cursor is on the screen. -/
structure InScreen : Prop where
  x_nonneg : 0 ≤ s.position.x
  x_lt : s.position.x < s.screenSize.x
  y_nonneg : 0 ≤ s.position.y
  y_lt : s.position.y < s.screenSize.y

/-- No displacement overflows a coordinate on a screen of this size. -/
def Fits (screenSize : Vector2D) : Prop := screenSize.x ≤ 2 ^ 31 - 128 ∧ screenSize.y ≤ 2 ^ 31 - 128

/-- A displacement of a coordinate that is nothing or is lost at an edge. -/
def Rests (p d last : Int) : Prop := d = 0 ∨ (p = 0 ∧ d ≤ 0) ∨ (p = last ∧ 0 ≤ d)

/-- The report does not carry the cursor past the left or the upper edge, or it leaves the cursor and the
left button as they are. -/
def Within (buttons : UInt8) (dx dy : Int) : Prop :=
  (0 ≤ s.position.x + dx ∧ 0 ≤ s.position.y + dy) ∨
  (leftPressed s.previousButtons = leftPressed buttons ∧
    Rests s.position.x dx (s.screenSize.x - 1) ∧ Rests s.position.y dy (s.screenSize.y - 1))

instance (p d last : Int) : Decidable (Rests p d last) := inferInstanceAs (Decidable (_ ∨ _))

instance (buttons : UInt8) (dx dy : Int) : Decidable (s.Within buttons dx dy) :=
  inferInstanceAs (Decidable (_ ∨ _))

variable {s}

/-- The far edges alone bound `newpos`. -/
theorem newpos_eq (I : s.InScreen) (hfits : Fits s.screenSize) (dx dy : Int8) :
    s.newpos dx.toInt dy.toInt = ⟨min (s.position.x + dx.toInt) (s.screenSize.x - 1),
      min (s.position.y + dy.toInt) (s.screenSize.y - 1)⟩ := by
  obtain ⟨hx, hx', hy, hy'⟩ := I
  obtain ⟨hfx, hfy⟩ := hfits
  have hdx := dx.le_toInt
  have hdx' := dx.toInt_lt
  have hdy := dy.le_toInt
  have hdy' := dy.toInt_lt
  have h₁ : wrap32 (s.position.x + dx.toInt) = s.position.x + dx.toInt :=
    wrap32_of_range (by omega) (by omega)
  have h₂ : wrap32 (s.position.y + dy.toInt) = s.position.y + dy.toInt :=
    wrap32_of_range (by omega) (by omega)
  have h₃ : wrap32 (s.screenSize.x + -1) = s.screenSize.x - 1 :=
    wrap32_of_range (by omega) (by omega)
  have h₄ : wrap32 (s.screenSize.y + -1) = s.screenSize.y - 1 :=
    wrap32_of_range (by omega) (by omega)
  simp only [newpos, Vector2D.add_x, Vector2D.add_y, h₁, h₂, h₃, h₄]

end Mouse

/-- The differences to a point tell coordinates apart. -/
theorem sub_left_inj_of_range {a b c : Vector2D} (hax : -2 ^ 31 ≤ a.x ∧ a.x < 2 ^ 31)
    (hay : -2 ^ 31 ≤ a.y ∧ a.y < 2 ^ 31) (hbx : -2 ^ 31 ≤ b.x ∧ b.x < 2 ^ 31)
    (hby : -2 ^ 31 ≤ b.y ∧ b.y < 2 ^ 31) : a - c = b - c ↔ a = b := by
  rw [Vector2D.ext_iff, Vector2D.ext_iff, Vector2D.sub_x, Vector2D.sub_x, Vector2D.sub_y,
    Vector2D.sub_y]
  simp only [wrap32]
  omega

namespace Mouse

variable {s : Mouse}

theorem nextPosition_eq_newpos_iff (I : s.InScreen) (hfits : Fits s.screenSize) (dx dy : Int8) :
    s.newpos dx.toInt dy.toInt = s.nextPosition dx.toInt dy.toInt ↔
      0 ≤ s.position.x + dx.toInt ∧ 0 ≤ s.position.y + dy.toInt := by
  obtain ⟨hx, hx', hy, hy'⟩ := I
  rw [nextPosition_eq, newpos_eq ⟨hx, hx', hy, hy'⟩ hfits, Vector2D.ext_iff]
  dsimp only
  omega

theorem nextPosition_eq_iff (I : s.InScreen) (hfits : Fits s.screenSize) (dx dy : Int8) :
    s.nextPosition dx.toInt dy.toInt = s.position ↔
      Rests s.position.x dx.toInt (s.screenSize.x - 1) ∧
        Rests s.position.y dy.toInt (s.screenSize.y - 1) := by
  obtain ⟨hx, hx', hy, hy'⟩ := I
  rw [nextPosition_eq, newpos_eq ⟨hx, hx', hy, hy'⟩ hfits, Vector2D.ext_iff]
  simp only [Rests]
  omega

/-- The clamps keep the cursor on the screen. -/
theorem nextPosition_inScreen {s' : Mouse} (I : s.InScreen) (hfits : Fits s.screenSize) {dx dy : Int8}
    (hposition : s'.position = s.nextPosition dx.toInt dy.toInt)
    (hscreen : s'.screenSize = s.screenSize) : s'.InScreen := by
  obtain ⟨hx, hx', hy, hy'⟩ := I
  rw [nextPosition_eq, newpos_eq ⟨hx, hx', hy, hy'⟩ hfits] at hposition
  constructor <;> rw [hposition] <;> try rw [hscreen]
  all_goals
    dsimp only
    omega

theorem InScreen.range (I : s.InScreen) (hfits : Fits s.screenSize) :
    (-2 ^ 31 ≤ s.position.x ∧ s.position.x < 2 ^ 31) ∧
      (-2 ^ 31 ≤ s.position.y ∧ s.position.y < 2 ^ 31) := by
  obtain ⟨hx, hx', hy, hy'⟩ := I
  obtain ⟨hfx, hfy⟩ := hfits
  omega

end Mouse

/-- The place that a message of the mouse tells. -/
def placeOf : Message → Option Vector2D
  | .kMouseMove x y _ _ _ | .kMouseButton x y _ _ => some ⟨x, y⟩
  | _ => none

/-- The displacement that a message of the mouse tells. -/
def moved : Message → Int × Int
  | .kMouseMove _ _ dx dy _ => (dx, dy)
  | _ => 0

namespace MouseReport

variable {r : MouseReport} {layerId taskId : Nat}

/-- All messages of a report tell the place of the cursor within the layer. -/
def PlacesRight (layerId taskId : Nat) (r : MouseReport) : Prop :=
  ∃ layer, r.after.desktop.manager.findLayer layerId = some layer ∧
    ∀ msg ∈ r.received taskId, ∀ p ∈ placeOf msg, p = r.after.position - layer.pos

/-- The report does not carry the cursor past the left or the upper edge, unless it sends nothing. -/
def Within (r : MouseReport) : Prop := r.before.Within r.buttons r.dx.toInt r.dy.toInt

theorem posdiff_ne_iff (hr : r.Sends layerId taskId) (I : r.before.InScreen)
    (hfits : Mouse.Fits r.before.screenSize) :
    ((r.after.position - r.before.position).x ≠ 0 ∨ (r.after.position - r.before.position).y ≠ 0) ↔
      r.after.position ≠ r.before.position := by
  have I' := Mouse.nextPosition_inScreen I hfits hr.position hr.screenSize
  obtain ⟨⟨hx, hx'⟩, hy, hy'⟩ := I.range hfits
  obtain ⟨⟨hax, hax'⟩, hay, hay'⟩ := I'.range (hr.screenSize ▸ hfits)
  rw [ne_eq r.after.position, Vector2D.ext_iff, Vector2D.sub_x, Vector2D.sub_y]
  simp only [wrap32]
  omega

/-- Every message of a report tells `newpos`, and there is none only if neither the cursor nor the left
button changed. -/
theorem places (hr : r.Sends layerId taskId) (I : r.before.InScreen)
    (hfits : Mouse.Fits r.before.screenSize) :
    ∃ layer, r.after.desktop.manager.findLayer layerId = some layer ∧
      (∀ msg ∈ r.received taskId,
        placeOf msg = some (r.before.newpos r.dx.toInt r.dy.toInt - layer.pos)) ∧
      (r.received taskId = [] ↔ r.after.position = r.before.position ∧
        Mouse.leftPressed r.before.previousButtons = Mouse.leftPressed r.buttons) := by
  obtain ⟨layer, hlayer, hreceived⟩ := hr.received
  simp only [posdiff_ne_iff hr I hfits] at hreceived
  refine ⟨layer, hlayer, ?_, ?_⟩
  · rw [hreceived]
    intro msg hmsg
    rcases List.mem_append.mp hmsg with h | h
    · obtain ⟨-, hmsg⟩ := List.mem_ite_nil_right.mp h
      rw [List.mem_singleton.mp hmsg]
      rfl
    · obtain ⟨-, hmsg⟩ := List.mem_ite_nil_right.mp h
      rw [List.mem_singleton.mp hmsg]
      rfl
  · rw [hreceived, List.append_eq_nil_iff, ite_eq_right_iff, ite_eq_right_iff]
    simp

theorem placesRight_iff (hr : r.Sends layerId taskId) (I : r.before.InScreen)
    (hfits : Mouse.Fits r.before.screenSize) : r.PlacesRight layerId taskId ↔ r.Within := by
  obtain ⟨layer, hlayer, hplaces, hnil⟩ := places hr I hfits
  have I' := Mouse.nextPosition_inScreen I hfits hr.position hr.screenSize
  have hnewpos := Mouse.nextPosition_eq_newpos_iff I hfits r.dx r.dy
  have hrests := Mouse.nextPosition_eq_iff I hfits r.dx r.dy
  rw [← hr.position] at hnewpos hrests
  obtain ⟨⟨hx, hx'⟩, hy, hy'⟩ := I'.range (hr.screenSize ▸ hfits)
  have hnear : r.before.newpos r.dx.toInt r.dy.toInt - layer.pos = r.after.position - layer.pos ↔
      r.before.newpos r.dx.toInt r.dy.toInt = r.after.position := by
    obtain ⟨hbx, hbx', hby, hby'⟩ := I
    obtain ⟨hfx, hfy⟩ := hfits
    have hdx := r.dx.le_toInt
    have hdy := r.dy.le_toInt
    refine sub_left_inj_of_range ?_ ?_ ⟨hx, hx'⟩ ⟨hy, hy'⟩ <;>
      rw [Mouse.newpos_eq ⟨hbx, hbx', hby, hby'⟩ ⟨hfx, hfy⟩] <;> dsimp only <;> omega
  rw [Within, Mouse.Within, ← hnewpos, ← hrests, ← hnear]
  constructor
  · rintro ⟨layer', hlayer', hright⟩
    obtain rfl : layer = layer' := Option.some.inj (hlayer.symm.trans hlayer')
    cases hreceived : r.received taskId with
    | nil => exact .inr (hnil.mp hreceived).symm
    | cons msg msgs =>
      have hmsg : msg ∈ r.received taskId := by simp [hreceived]
      exact .inl (hright msg hmsg _ (hplaces msg hmsg))
  · intro h
    refine ⟨layer, hlayer, fun msg hmsg p hp => ?_⟩
    obtain rfl : _ = p := Option.some.inj ((hplaces msg hmsg).symm.trans hp)
    refine h.resolve_right fun hsilent => ?_
    rw [hnil.mpr hsilent.symm] at hmsg
    exact absurd hmsg (by simp)

/-- The displacements that a report sends are those of the cursor. -/
theorem moved_sum (hr : r.Sends layerId taskId) (I : r.before.InScreen)
    (hfits : Mouse.Fits r.before.screenSize) :
    ((r.received taskId).map moved).sum = (r.after.position.x - r.before.position.x,
      r.after.position.y - r.before.position.y) := by
  have I' := Mouse.nextPosition_inScreen I hfits hr.position hr.screenSize
  obtain ⟨hx, hx', hy, hy'⟩ := I
  obtain ⟨hax, hax', hay, hay'⟩ := I'
  obtain ⟨hfx, hfy⟩ := hfits
  rw [hr.screenSize] at hax' hay'
  have h₁ : (r.after.position - r.before.position).x = r.after.position.x - r.before.position.x :=
    wrap32_of_range (by omega) (by omega)
  have h₂ : (r.after.position - r.before.position).y = r.after.position.y - r.before.position.y :=
    wrap32_of_range (by omega) (by omega)
  obtain ⟨layer, -, hreceived⟩ := hr.received
  dsimp only at hreceived
  rw [h₁, h₂] at hreceived
  rw [hreceived, List.map_append, List.sum_append]
  split_ifs with hmove hleft hleft
  all_goals
    simp only [List.map_cons, List.map_nil, List.sum_cons, List.sum_nil, moved, add_zero]
  all_goals
    obtain ⟨hxzero, hyzero⟩ := not_or.mp hmove
    rw [not_not.mp hxzero, not_not.mp hyzero]
    rfl

end MouseReport

namespace MouseSession

open MouseReport

variable {s s' : MouseSession} {es : List Event} {layerId taskId : Nat}

/-- After every report the cursor is on the screen, its messages tell its place within the layer, and
the displacements sent so far add up to its way from `start`. -/
def CoordinatesRight (layerId taskId : Nat) (start : Vector2D) (reports : List MouseReport) : Prop :=
  ∀ pre r post, reports = pre ++ r :: post →
    r.after.InScreen ∧ r.PlacesRight layerId taskId ∧
    (((pre ++ [r]).flatMap (·.received taskId)).map moved).sum =
      (r.after.position.x - start.x, r.after.position.y - start.y)

/-- The reports of a run are its events of this kind, each in the state in which it came. -/
theorem forall_reports_iff {C : Mouse → UInt8 → Int8 → Int8 → Prop} (h : system.Run s es s') :
    (∀ r ∈ s'.reports, C r.before r.buttons r.dx r.dy) ↔
      (∀ r ∈ s.reports, C r.before r.buttons r.dx r.dy) ∧
      ∀ pre b dx dy post t, es = pre ++ .report b dx dy :: post → system.Run s pre t →
        C t.mouse b dx dy := by
  induction h with
  | nil =>
    exact ⟨fun h => ⟨h, fun pre b dx dy post t hes => absurd hes (by simp)⟩, fun h => h.1⟩
  | @cons s e t es s' hstep hrun ih =>
    rw [ih]
    constructor
    · rintro ⟨hreports, hevents⟩
      refine ⟨fun r hr => hreports r ?_, ?_⟩
      · cases e with
        | report b dx dy =>
          obtain ⟨⟨mouse, sent⟩, -, rfl⟩ := Option.map_eq_some_iff.mp hstep
          exact List.mem_append_left _ hr
        | others desktop layerTaskMap =>
          cases hstep
          exact hr
      · intro pre b dx dy post u hes hpre
        cases hpre with
        | nil =>
          obtain ⟨rfl, -⟩ := List.cons.inj hes
          obtain ⟨⟨mouse, sent⟩, -, rfl⟩ := Option.map_eq_some_iff.mp hstep
          exact hreports ⟨s.mouse, b, dx, dy, mouse, sent⟩ (by simp)
        | cons hfirst hpre =>
          obtain ⟨rfl, htail⟩ := List.cons.inj hes
          cases hstep.symm.trans hfirst
          exact hevents _ b dx dy post u htail hpre
    · rintro ⟨hreports, hevents⟩
      refine ⟨?_, fun pre b dx dy post u hes hpre =>
        hevents (e :: pre) b dx dy post u (by rw [hes]; rfl) (.cons hstep hpre)⟩
      cases e with
      | report b dx dy =>
        have hnew := hevents [] b dx dy es s rfl .nil
        obtain ⟨⟨mouse, sent⟩, -, rfl⟩ := Option.map_eq_some_iff.mp hstep
        exact List.forall_mem_append.mpr ⟨hreports, by simpa using hnew⟩
      | others desktop layerTaskMap =>
        cases hstep
        exact hreports

/-- What a run keeps of the cursor: its reports are those of a cursor on the screen, and the displacements
sent add up. -/
structure Tracked (layerId taskId : Nat) (start : Vector2D) (s : MouseSession) : Prop where
  inScreen : s.mouse.InScreen
  fits : Mouse.Fits s.mouse.screenSize
  before : ∀ r ∈ s.reports, r.before.InScreen ∧ Mouse.Fits r.before.screenSize
  sum : ((s.reports.flatMap (·.received taskId)).map moved).sum =
    (s.mouse.position.x - start.x, s.mouse.position.y - start.y)
  reports : ∀ pre r post, s.reports = pre ++ r :: post → r.after.InScreen ∧
    (((pre ++ [r]).flatMap (·.received taskId)).map moved).sum =
      (r.after.position.x - start.x, r.after.position.y - start.y)

theorem Stays.tracked (h : Stays layerId taskId s es s') (hreports : s.reports = [])
    (I : s.mouse.InScreen) (hfits : Mouse.Fits s.mouse.screenSize) :
    Tracked layerId taskId s.mouse.position s' := by
  refine h.run.invariant_of_forall (fun t e t' T hP hstep => ?_) ⟨I, hfits, ?_, ?_, ?_⟩ h.proper
  · cases e with
    | report b dx dy =>
      obtain ⟨r, hr, happend, hbefore, -, -, -, hafter⟩ := step_report hstep (hP.2 t' hstep) hP.1
      have hI : r.before.InScreen := hbefore ▸ T.inScreen
      have hF : Mouse.Fits r.before.screenSize := hbefore ▸ T.fits
      have hI' := Mouse.nextPosition_inScreen hI hF hr.position hr.screenSize
      have hsum : (((t.reports ++ [r]).flatMap (·.received taskId)).map moved).sum =
          (r.after.position.x - s.mouse.position.x, r.after.position.y - s.mouse.position.y) := by
        rw [List.flatMap_append, List.map_append, List.sum_append, T.sum, List.flatMap_singleton,
          moved_sum hr hI hF, hbefore, Prod.mk_add_mk]
        congr 1 <;> ring
      refine ⟨hafter ▸ hI', ?_, ?_, ?_, ?_⟩
      · rw [← hafter, hr.screenSize]
        exact hF
      · rw [happend]
        exact List.forall_mem_append.mpr ⟨T.before, by simpa using ⟨hI, hF⟩⟩
      · rw [happend, ← hafter]
        exact hsum
      · rw [happend]
        exact Transition.forall_split_snoc T.reports ⟨hI', hsum⟩
    | others desktop layerTaskMap =>
      cases hstep
      exact ⟨⟨T.inScreen.x_nonneg, T.inScreen.x_lt, T.inScreen.y_nonneg, T.inScreen.y_lt⟩, T.fits,
        T.before, T.sum, T.reports⟩
  · simp [hreports]
  · rw [hreports, sub_self, sub_self]
    rfl
  · rw [hreports]
    exact fun pre r post heq => absurd heq (by simp)

/-- The messages tell the cursor's place if and only if no report carries the cursor past the left or the
upper edge, unless it sends nothing. -/
theorem coordinatesRight_iff (h : Stays layerId taskId s es s') (hreports : s.reports = [])
    (I : s.mouse.InScreen) (hfits : Mouse.Fits s.mouse.screenSize) :
    CoordinatesRight layerId taskId s.mouse.position s'.reports ↔
      ∀ pre b dx dy post t, es = pre ++ .report b dx dy :: post → system.Run s pre t →
        t.mouse.Within b dx.toInt dy.toInt := by
  have T := h.tracked hreports I hfits
  have hiff : ∀ r ∈ s'.reports, (r.PlacesRight layerId taskId ↔ r.Within) := fun r hr =>
    placesRight_iff (h.sends hreports r hr) (T.before r hr).1 (T.before r hr).2
  have hwithin := forall_reports_iff (C := fun m b dx dy => m.Within b dx.toInt dy.toInt) h.run
  rw [hreports] at hwithin
  simp only [List.not_mem_nil, false_implies, implies_true, true_and] at hwithin
  rw [← hwithin]
  constructor
  · intro H r hr
    obtain ⟨pre, post, heq⟩ := List.append_of_mem hr
    exact (hiff r hr).mp (H pre r post heq).2.1
  · intro H pre r post heq
    have hr : r ∈ s'.reports := by simp [heq]
    obtain ⟨hscreen, hsum⟩ := T.reports pre r post heq
    exact ⟨hscreen, (hiff r hr).mpr (H r hr), hsum⟩

/-- The cursor goes to the left edge of the screen and is pushed against it. -/
def pushes : List Event := [.report 0 (-100) 0, .report 0 (-100) 0, .report 0 (-100) 0]

theorem coordinatesRight_iff_pushes : ∃ s s', mainActive = some s ∧
    execStays 3 2 s pushes = some s' ∧
    (CoordinatesRight 3 2 s.mouse.position s'.reports ↔
      ∀ pre b dx dy post t, pushes = pre ++ .report b dx dy :: post → system.Run s pre t →
        t.mouse.Within b dx.toInt dy.toInt) := by
  have hexec : (mainActive.bind fun s => (execStays 3 2 s pushes).map fun _ =>
      (s.reports.length, s.mouse.position, s.mouse.screenSize)) =
        some (0, ⟨200, 200⟩, ⟨400, 300⟩) := by decide +kernel
  obtain ⟨s, hs, hexec⟩ := Option.bind_eq_some_iff.mp hexec
  obtain ⟨s', hs', hstart⟩ := Option.map_eq_some_iff.mp hexec
  obtain ⟨hreports, hstart⟩ := Prod.mk.inj hstart
  obtain ⟨hposition, hscreen⟩ := Prod.mk.inj hstart
  refine ⟨s, s', hs, hs', coordinatesRight_iff (stays_of_exec hs')
    (List.eq_nil_of_length_eq_zero hreports) ?_ ?_⟩
  · constructor <;> rw [hposition] <;> try rw [hscreen]
    all_goals decide
  · rw [hscreen, Mouse.Fits]
    decide

/-- The second report carries the cursor past the left edge, and its message tells a place that is not on
the screen. -/
theorem not_coordinatesRight_left : ¬ ∀ (layerId taskId : Nat) (s s' : MouseSession) (es : List Event),
    Stays layerId taskId s es s' → s.reports = [] → s.mouse.InScreen →
      Mouse.Fits s.mouse.screenSize → CoordinatesRight layerId taskId s.mouse.position s'.reports := by
  intro h
  have hexec : (mainActive.bind fun s =>
      (execStays 3 2 s [.report 0 (-128) 0, .report 0 (-128) 0]).map fun s' =>
        ((s.reports.length, s.mouse.position, s.mouse.screenSize),
          s'.reports.map fun r => ((r.received 2).filterMap placeOf, r.after.position,
            (r.after.desktop.manager.findLayer 3).map Layer.pos))) =
      some ((0, ⟨200, 200⟩, ⟨400, 300⟩), [([⟨-228, 100⟩], ⟨72, 200⟩, some ⟨300, 100⟩),
        ([⟨-356, 100⟩], ⟨0, 200⟩, some ⟨300, 100⟩)]) := by
    decide +kernel
  obtain ⟨s, -, hexec⟩ := Option.bind_eq_some_iff.mp hexec
  obtain ⟨s', hs', hend⟩ := Option.map_eq_some_iff.mp hexec
  obtain ⟨hstart, hlast⟩ := Prod.mk.inj hend
  obtain ⟨hreports, hstart⟩ := Prod.mk.inj hstart
  obtain ⟨hposition, hscreen⟩ := Prod.mk.inj hstart
  obtain ⟨r₁, rs, hsplit, -, hrest⟩ := List.map_eq_cons_iff.mp hlast
  obtain ⟨r, rfl, hr⟩ := List.map_eq_singleton_iff.mp hrest
  obtain ⟨hsent, hr⟩ := Prod.mk.inj hr
  obtain ⟨hafter, hlayer⟩ := Prod.mk.inj hr
  have hplaces : (⟨-356, 100⟩ : Vector2D) ∈ (r.received 2).filterMap placeOf := by
    rw [hsent]
    exact List.mem_singleton_self _
  obtain ⟨msg, hmsg, hplace⟩ := List.mem_filterMap.mp hplaces
  have I : s.mouse.InScreen := by
    constructor <;> rw [hposition] <;> try rw [hscreen]
    all_goals decide
  have hfits : Mouse.Fits s.mouse.screenSize := by
    rw [hscreen, Mouse.Fits]
    decide
  obtain ⟨-, ⟨layer, hfind, hright⟩, -⟩ := h 3 2 s s' _ (stays_of_exec hs')
    (List.eq_nil_of_length_eq_zero hreports) I hfits [r₁] r [] hsplit
  rw [hfind] at hlayer
  have hpos : layer.pos = ⟨300, 100⟩ := Option.some.inj hlayer
  have hwrong := hright msg hmsg _ hplace
  rw [hafter, hpos] at hwrong
  exact absurd hwrong (by decide)

end MouseSession

end MikanOS
