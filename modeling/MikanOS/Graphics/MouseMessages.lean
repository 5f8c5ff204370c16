import MikanOS.Graphics.Mouse
import MikanOS.Task.Message

/-! # The messages of the mouse

What `Mouse::OnInterrupt` sends to the task of the active layer: `FindActiveLayerTask`,
`SendMouseMessage` and `SendCloseMessage` of `mouse.cpp`. The messages take their coordinates from the
position before its second clamp, and the loop over the buttons shifts their difference the wrong way. -/

namespace MikanOS

open LayerManager Layers

/-- `FindActiveLayerTask`, with `layer_task_map`. -/
def Desktop.findActiveLayerTask (d : Desktop) (layerTaskMap : Nat → Option Nat) :
    Option Layer × Nat :=
  if d.activeLayer = 0 then (none, 0)
  else
    match d.manager.findLayer d.activeLayer with
    | none => (none, 0)
    | some layer => (some layer, (layerTaskMap d.activeLayer).getD 0)

/-- The messages of `SendMouseMessage`, each with the task that it goes to. -/
def sendMouseMessage (d : Desktop) (layerTaskMap : Nat → Option Nat) (newpos posdiff : Vector2D)
    (buttons previousButtons : UInt8) : List (Nat × Message) :=
  match d.findActiveLayerTask layerTaskMap with
  | (none, _) => []
  | (some layer, taskId) =>
    if taskId = 0 then []
    else
      let relpos := newpos - layer.pos
      let diff := (previousButtons ^^^ buttons).toNat
      (if posdiff.x ≠ 0 ∨ posdiff.y ≠ 0 then
        [(taskId, .kMouseMove relpos.x relpos.y posdiff.x posdiff.y buttons)] else []) ++
      if previousButtons ≠ buttons then
        (List.range 8).filterMap fun i =>
          if diff <<< i &&& 1 ≠ 0 then
            some (taskId, .kMouseButton relpos.x relpos.y ((buttons.toNat >>> i &&& 1 : Nat) : Int) i)
          else none
      else []

/-- `SendCloseMessage`. -/
def sendCloseMessage (d : Desktop) (layerTaskMap : Nat → Option Nat) : List (Nat × Message) :=
  match d.findActiveLayerTask layerTaskMap with
  | (none, _) => []
  | (some layer, taskId) => if taskId = 0 then [] else [(taskId, .kWindowClose layer.id)]

namespace Mouse

variable (s : Mouse)

/-- `newpos`, which `ElementMin` has kept from passing the far edges. -/
def newpos (dx dy : Int) : Vector2D :=
  let newpos := s.position + ⟨dx, dy⟩
  let last : Vector2D := s.screenSize + ⟨-1, -1⟩
  ⟨min newpos.x last.x, min newpos.y last.y⟩

/-- `close_layer_id` at the end of a report: the layer whose close button went down. -/
def closeLayerId (buttons : UInt8) (dx dy : Int) : Nat :=
  if !leftPressed s.previousButtons && leftPressed buttons then
    match s.desktop.manager.move s.layerId (s.nextPosition dx dy) with
    | none => 0
    | some manager =>
      match manager.findLayerByPosition (s.nextPosition dx dy) s.layerId with
      | none => 0
      | some layer =>
        if layer.draggable ∧ layer.window.any (fun win =>
            win.getWindowRegion (s.nextPosition dx dy - layer.pos) = .kCloseButton) then layer.id
        else 0
  else 0

/-- `OnInterrupt` with its messages. -/
def report (layerTaskMap : Nat → Option Nat) (buttons : UInt8) (dx dy : Int) :
    Option (Mouse × List (Nat × Message)) :=
  (s.onInterrupt buttons dx dy).2.map fun s' =>
    (s', if s'.dragLayerId = 0 then
        if s.closeLayerId buttons dx dy = 0 then
          sendMouseMessage s'.desktop layerTaskMap (s.newpos dx dy)
            (s.nextPosition dx dy - s.position) buttons s.previousButtons
        else sendCloseMessage s'.desktop layerTaskMap
      else [])

end Mouse

/-- A report that was handled, with the mouse before and after it. -/
structure MouseReport where
  before : Mouse
  buttons : UInt8
  dx : Int8
  dy : Int8
  after : Mouse
  sent : List (Nat × Message)

/-- The mouse with the reports so far, the earliest first. -/
structure MouseSession where
  mouse : Mouse
  layerTaskMap : Nat → Option Nat
  reports : List MouseReport

namespace MouseSession

/-- A report of the mouse, or whatever other tasks do to the layers and to `layer_task_map`. -/
inductive Event where
  | report (buttons : UInt8) (dx dy : Int8)
  | others (desktop : Desktop) (layerTaskMap : Nat → Option Nat)

def step (s : MouseSession) : Event → Option MouseSession
  | .report buttons dx dy =>
    (s.mouse.report s.layerTaskMap buttons dx.toInt dy.toInt).map fun (mouse, sent) =>
      { s with mouse, reports := s.reports ++ [⟨s.mouse, buttons, dx, dy, mouse, sent⟩] }
  | .others desktop layerTaskMap => some { s with mouse := { s.mouse with desktop }, layerTaskMap }

def system : Transition.System MouseSession Event := ⟨step⟩

/-- The window of the task is active, and nothing is dragged. -/
structure Attended (layerId taskId : Nat) (s : MouseSession) : Prop where
  layerId_ne : layerId ≠ 0
  taskId_ne : taskId ≠ 0
  active : s.mouse.desktop.activeLayer = layerId
  layer : (s.mouse.desktop.manager.findLayer layerId).isSome
  task : s.layerTaskMap layerId = some taskId
  drag : s.mouse.dragLayerId = 0

instance (layerId taskId : Nat) (s : MouseSession) : Decidable (Attended layerId taskId s) :=
  decidable_of_iff (layerId ≠ 0 ∧ taskId ≠ 0 ∧ s.mouse.desktop.activeLayer = layerId ∧
      (s.mouse.desktop.manager.findLayer layerId).isSome ∧ s.layerTaskMap layerId = some taskId ∧
      s.mouse.dragLayerId = 0)
    ⟨fun ⟨h₁, h₂, h₃, h₄, h₅, h₆⟩ => ⟨h₁, h₂, h₃, h₄, h₅, h₆⟩,
      fun ⟨h₁, h₂, h₃, h₄, h₅, h₆⟩ => ⟨h₁, h₂, h₃, h₄, h₅, h₆⟩⟩

/-- The event does not press the close button of a window. -/
def ClosesNone (s : MouseSession) : Event → Prop
  | .report buttons dx dy => s.mouse.closeLayerId buttons dx.toInt dy.toInt = 0
  | .others .. => True

instance (s : MouseSession) : DecidablePred s.ClosesNone
  | .report .. => inferInstanceAs (Decidable (_ = _))
  | .others .. => inferInstanceAs (Decidable True)

/-- A run during which the window `layerId` of the task stays active and is neither dragged nor closed. -/
structure Stays (layerId taskId : Nat) (s : MouseSession) (es : List Event) (s' : MouseSession) :
    Prop where
  run : system.Run s es s'
  attended : system.Throughout (Attended layerId taskId) s es
  closesNone : ∀ pre e post t, es = pre ++ e :: post → system.Run s pre t → t.ClosesNone e

end MouseSession

/-! ## One report -/

namespace Mouse

variable {s s' : Mouse} {b : UInt8} {dx dy : Int}

theorem nextPosition_eq (s : Mouse) (dx dy : Int) :
    s.nextPosition dx dy = ⟨max (s.newpos dx dy).x 0, max (s.newpos dx dy).y 0⟩ := rfl

/-- What the branches of `OnInterrupt` leave alone. -/
theorem buttons_frame {posDiff : Vector2D} (h : (s.buttons b posDiff).2 = some s') :
    s'.position = s.position ∧ s'.screenSize = s.screenSize := by
  have hactivate : ∀ {layerId : Nat} {t : Mouse},
      ((s.desktop.activate layerId).map fun desktop => { s with desktop }) = some t →
        t.position = s.position ∧ t.screenSize = s.screenSize := by
    intro layerId t ht
    obtain ⟨d, -, rfl⟩ := Option.map_eq_some_iff.mp ht
    exact ⟨rfl, rfl⟩
  rw [buttons] at h
  dsimp only at h
  split_ifs at h
  · rw [press] at h
    split at h
    · split at h
      · obtain ⟨win, -, h⟩ := Option.bind_eq_some_iff.mp h
        obtain ⟨d, -, h⟩ := Option.bind_eq_some_iff.mp h
        cases h
        exact ⟨rfl, rfl⟩
      · exact hactivate h
    · exact hactivate h
  · obtain ⟨lm, -, rfl⟩ := Option.map_eq_some_iff.mp h
    exact ⟨rfl, rfl⟩
  all_goals
    cases h
    exact ⟨rfl, rfl⟩

theorem onInterrupt_frame (h : (s.onInterrupt b dx dy).2 = some s') :
    s'.position = s.nextPosition dx dy ∧ s'.screenSize = s.screenSize ∧
      s'.previousButtons = b := by
  rw [onInterrupt] at h
  dsimp only at h
  split at h
  · cases h
  · obtain ⟨t, ht, rfl⟩ := Option.map_eq_some_iff.mp h
    obtain ⟨hpos, hscreen⟩ := buttons_frame ht
    exact ⟨hpos, hscreen, rfl⟩

end Mouse

/-- The loop of `SendMouseMessage` over the buttons: only the first one's difference stays in place. -/
theorem filterMap_shift {α : Type} (diff : Nat) (f : Nat → α) :
    ((List.range 8).filterMap fun i => if diff <<< i &&& 1 ≠ 0 then some (f i) else none) =
      if diff % 2 = 1 then [f 0] else [] := by
  have hrest : (List.range' 1 7).filterMap (fun i =>
      if diff <<< i &&& 1 ≠ 0 then some (f i) else none) = [] := by
    refine List.filterMap_eq_nil_iff.mpr fun i hi => if_neg ?_
    obtain ⟨k, rfl⟩ := Nat.exists_eq_add_of_le' (List.mem_range'_1.mp hi).1
    rw [Nat.and_one_is_mod, Nat.shiftLeft_eq, pow_succ, ← Nat.mul_assoc, Nat.mul_mod_left]
    exact fun h => h rfl
  rw [show List.range 8 = 0 :: List.range' 1 7 from rfl, List.filterMap_cons, hrest,
    Nat.shiftLeft_zero, Nat.and_one_is_mod]
  rcases Nat.mod_two_eq_zero_or_one diff with h | h <;> simp [h]

theorem leftPressed_iff (b : UInt8) : Mouse.leftPressed b = decide (b.toNat % 2 = 1) := by
  rw [Mouse.leftPressed, Bool.eq_iff_iff, decide_eq_true_eq, decide_eq_true_eq, Ne,
    ← UInt8.toNat_inj, UInt8.toNat_and]
  have := Nat.and_one_is_mod b.toNat
  have hone : (1 : UInt8).toNat = 1 := rfl
  have hzero : (0 : UInt8).toNat = 0 := rfl
  rw [hone, hzero, this]
  omega

theorem xor_mod_two (b c : UInt8) :
    (b ^^^ c).toNat % 2 = 1 ↔ Mouse.leftPressed b ≠ Mouse.leftPressed c := by
  rw [leftPressed_iff, leftPressed_iff, UInt8.toNat_xor, Nat.xor_mod_two_eq_one]
  rcases Nat.mod_two_eq_zero_or_one b.toNat with h | h <;>
    rcases Nat.mod_two_eq_zero_or_one c.toNat with h' | h' <;> simp [h, h']

namespace MouseReport

variable (r : MouseReport)

/-- The messages that a task receives for a report. -/
def received (taskId : Nat) : List Message := (r.sent.filter (·.1 = taskId)).map Prod.snd

/-- What a report sends to the task of the window that is active: a message if the mouse moved, and a
message if the left button changed, with the coordinates `newpos`. -/
structure Sends (layerId taskId : Nat) : Prop where
  position : r.after.position = r.before.nextPosition r.dx.toInt r.dy.toInt
  screenSize : r.after.screenSize = r.before.screenSize
  previousButtons : r.after.previousButtons = r.buttons
  received : ∃ layer, r.after.desktop.manager.findLayer layerId = some layer ∧
    let relpos := r.before.newpos r.dx.toInt r.dy.toInt - layer.pos
    let posdiff := r.after.position - r.before.position
    r.received taskId =
      (if posdiff.x ≠ 0 ∨ posdiff.y ≠ 0 then
        [.kMouseMove relpos.x relpos.y posdiff.x posdiff.y r.buttons] else []) ++
      if Mouse.leftPressed r.before.previousButtons ≠ Mouse.leftPressed r.buttons then
        [.kMouseButton relpos.x relpos.y (r.buttons.toNat % 2 : Nat) 0] else []

end MouseReport

namespace MouseSession

variable {s s' : MouseSession} {es : List Event} {layerId taskId : Nat}

/-- The report that a step adds. -/
theorem step_report {b : UInt8} {dx dy : Int8} (h : s.step (.report b dx dy) = some s')
    (A : Attended layerId taskId s') (hclose : s.ClosesNone (.report b dx dy)) :
    ∃ r : MouseReport, r.Sends layerId taskId ∧ s'.reports = s.reports ++ [r] ∧
      r.before = s.mouse ∧ r.buttons = b ∧ r.dx = dx ∧ r.dy = dy ∧ r.after = s'.mouse := by
  obtain ⟨⟨mouse, sent⟩, hreport, rfl⟩ := Option.map_eq_some_iff.mp h
  obtain ⟨mouse', hinterrupt, hpair⟩ := Option.map_eq_some_iff.mp hreport
  obtain ⟨rfl, hsent⟩ := Prod.mk.inj hpair
  clear hpair
  obtain ⟨hposition, hscreen, hprevious⟩ := Mouse.onInterrupt_frame hinterrupt
  obtain ⟨layer, hlayer⟩ := Option.isSome_iff_exists.mp A.layer
  refine ⟨⟨s.mouse, b, dx, dy, mouse', sent⟩, ⟨hposition, hscreen, hprevious, layer, hlayer, ?_⟩,
    rfl, rfl, rfl, rfl, rfl, rfl⟩
  have hfind : mouse'.desktop.findActiveLayerTask s.layerTaskMap = (some layer, taskId) := by
    have hactive : mouse'.desktop.activeLayer = layerId := A.active
    have htask : s.layerTaskMap layerId = some taskId := A.task
    have hlayer' : mouse'.desktop.manager.findLayer layerId = some layer := hlayer
    simp only [Desktop.findActiveLayerTask, hactive, if_neg A.layerId_ne, hlayer', htask,
      Option.getD_some]
  have hdrag : mouse'.dragLayerId = 0 := A.drag
  have hclose' : s.mouse.closeLayerId b dx.toInt dy.toInt = 0 := hclose
  rw [if_pos hdrag, if_pos hclose', ← hposition, sendMouseMessage, hfind] at hsent
  simp only [if_neg A.taskId_ne] at hsent
  rw [filterMap_shift (s.mouse.previousButtons ^^^ b).toNat fun i => (taskId,
    Message.kMouseButton _ _ ((b.toNat >>> i &&& 1 : Nat) : Int) i)] at hsent
  simp only [xor_mod_two, Nat.shiftRight_zero, Nat.and_one_is_mod] at hsent
  simp only [MouseReport.received, ← hsent, List.filter_append, List.map_append]
  congr 1
  · split_ifs
    · rw [List.filter_singleton, decide_eq_true rfl]
      rfl
    · rfl
  · by_cases hsame : s.mouse.previousButtons = b
    · rw [if_neg (not_not_intro hsame), if_neg (not_not_intro (congrArg _ hsame))]
      rfl
    · rw [if_pos hsame]
      split_ifs
      · rw [List.filter_singleton, decide_eq_true rfl]
        rfl
      · rfl

/-- What a run with a window that stays active tells of each of its events. -/
def Proper (layerId taskId : Nat) (t : MouseSession) (e : Event) : Prop :=
  t.ClosesNone e ∧ ∀ t', t.step e = some t' → Attended layerId taskId t'

theorem Stays.proper (h : Stays layerId taskId s es s') :
    ∀ pre e post t, es = pre ++ e :: post → system.Run s pre t → Proper layerId taskId t e := by
  intro pre e post t hes hrun
  refine ⟨h.closesNone pre e post t hes hrun, fun t' hstep => ?_⟩
  exact h.attended (pre ++ [e]) post t' (by rw [hes, List.append_assoc]; rfl) (hrun.snoc hstep)

/-! ## Buttons -/

/-- What the receiver of a message does with the buttons that it takes for pressed. -/
def applyButton (pressed : UInt8) : Message → UInt8
  | .kMouseButton _ _ press button =>
    if press ≠ 0 then pressed ||| 1 <<< UInt8.ofNat button.toNat
    else pressed &&& ~~~(1 <<< UInt8.ofNat button.toNat)
  | _ => pressed

/-- The buttons that the task takes for pressed after a number of reports. -/
def replay (taskId : Nat) (reports : List MouseReport) : UInt8 :=
  (reports.flatMap (·.received taskId)).foldl applyButton 0

/-- The messages about one button. -/
def changesOf (i : Nat) (msgs : List Message) : List Int :=
  msgs.filterMap fun
    | .kMouseButton _ _ press button => if button = i then some press else none
    | _ => none

/-- After every report the receiver has the button byte, and it got one message for each button that
changed and none for the others. -/
def ButtonsReplayed (taskId : Nat) (reports : List MouseReport) : Prop :=
  ∀ pre r post, reports = pre ++ r :: post →
    replay taskId (pre ++ [r]) = r.buttons ∧
    ∀ i < 8, changesOf i (r.received taskId) =
      if r.before.previousButtons.toNat.testBit i = r.buttons.toNat.testBit i then []
      else [((r.buttons.toNat.testBit i).toNat : Int)]

variable {r : MouseReport} {reports : List MouseReport}

theorem replay_append (taskId : Nat) (reports : List MouseReport) (r : MouseReport) :
    replay taskId (reports ++ [r]) =
      (r.received taskId).foldl applyButton (replay taskId reports) := by
  rw [replay, List.flatMap_append, List.foldl_append, ← replay, List.flatMap_singleton]

theorem buttonsReplayed_append (h : ButtonsReplayed taskId reports)
    (hreplay : replay taskId (reports ++ [r]) = r.buttons)
    (hchanges : ∀ i < 8, changesOf i (r.received taskId) =
      if r.before.previousButtons.toNat.testBit i = r.buttons.toNat.testBit i then []
      else [((r.buttons.toNat.testBit i).toNat : Int)]) :
    ButtonsReplayed taskId (reports ++ [r]) :=
  Transition.forall_split_snoc h ⟨hreplay, hchanges⟩

/-- The messages of a report change the first button only. -/
theorem foldl_applyButton (hr : r.Sends layerId taskId) (pressed : UInt8) :
    (r.received taskId).foldl applyButton pressed =
      if Mouse.leftPressed r.before.previousButtons ≠ Mouse.leftPressed r.buttons then
        if Mouse.leftPressed r.buttons then pressed ||| 1 else pressed &&& ~~~1
      else pressed := by
  obtain ⟨layer, -, hreceived⟩ := hr.received
  rw [hreceived, List.foldl_append]
  have hmove (x y dx dy : Int) (P : Prop) [Decidable P] :
      (if P then [Message.kMouseMove x y dx dy r.buttons] else []).foldl applyButton pressed =
        pressed := by
    split <;> rfl
  rw [hmove]
  split
  · rw [List.foldl_cons, List.foldl_nil, applyButton, leftPressed_iff r.buttons]
    rcases Nat.mod_two_eq_zero_or_one r.buttons.toNat with h | h <;> simp [h]
  · rfl

theorem changesOf_received (hr : r.Sends layerId taskId) (i : Nat) :
    changesOf i (r.received taskId) =
      if i = 0 ∧ Mouse.leftPressed r.before.previousButtons ≠ Mouse.leftPressed r.buttons then
        [((r.buttons.toNat % 2 : Nat) : Int)]
      else [] := by
  obtain ⟨layer, -, hreceived⟩ := hr.received
  rw [hreceived, changesOf, List.filterMap_append]
  split_ifs <;> simp_all [eq_comm]

theorem eq_zero_or_one {b : UInt8} (h : b ≤ 1) : b = 0 ∨ b = 1 := by
  have hle : b.toNat ≤ 1 := UInt8.le_iff_toNat_le.mp h
  rcases Nat.le_one_iff_eq_zero_or_eq_one.mp hle with h | h
  · exact .inl (UInt8.toNat_inj.mp h)
  · exact .inr (UInt8.toNat_inj.mp h)

theorem replay_le_one (h : ∀ r ∈ reports, r.Sends layerId taskId) : replay taskId reports ≤ 1 := by
  induction reports using List.reverseRecOn with
  | nil => exact (by decide : (0 : UInt8) ≤ 1)
  | append_singleton reports r ih =>
    have hle := ih fun r' hr' => h r' (List.mem_append_left _ hr')
    rw [replay_append, foldl_applyButton (h r (by simp))]
    generalize replay taskId reports = pressed at hle
    rcases eq_zero_or_one hle with rfl | rfl <;> split_ifs <;> decide

/-- A report without further buttons is replayed. -/
theorem Sends.replayed (hr : r.Sends layerId taskId) (hb : r.buttons ≤ 1)
    (hprevious : r.before.previousButtons ≤ 1)
    (hreplay : replay taskId reports = r.before.previousButtons) :
    replay taskId (reports ++ [r]) = r.buttons ∧
    ∀ i < 8, changesOf i (r.received taskId) =
      if r.before.previousButtons.toNat.testBit i = r.buttons.toNat.testBit i then []
      else [((r.buttons.toNat.testBit i).toNat : Int)] := by
  rw [replay_append, foldl_applyButton hr, hreplay]
  simp only [changesOf_received hr]
  rcases eq_zero_or_one hb with h | h <;> rcases eq_zero_or_one hprevious with h' | h' <;>
    rw [h, h'] <;> decide

/-- The button bytes of a run are those of its events. -/
theorem buttons_of_run (h : system.Run s es s') :
    s'.reports.map (·.buttons) = s.reports.map (·.buttons) ++ es.filterMap fun
      | .report b _ _ => some b
      | .others .. => none := by
  induction h with
  | nil => simp
  | @cons s e t es s' hstep _ ih =>
    rw [ih]
    cases e with
    | report b dx dy =>
      obtain ⟨⟨mouse, sent⟩, -, rfl⟩ := Option.map_eq_some_iff.mp hstep
      simp
    | others desktop layerTaskMap =>
      cases hstep
      simp

theorem Stays.sends (h : Stays layerId taskId s es s') (hreports : s.reports = []) :
    ∀ r ∈ s'.reports, r.Sends layerId taskId := by
  refine h.run.invariant_of_forall (I := fun t => ∀ r ∈ t.reports, r.Sends layerId taskId)
    (fun t e t' H hP hstep => ?_) (by simp [hreports]) h.proper
  cases e with
  | report b dx dy =>
    obtain ⟨r, hr, happend, -⟩ := step_report hstep (hP.2 t' hstep) hP.1
    rw [happend]
    exact List.forall_mem_append.mpr ⟨H, by simpa using hr⟩
  | others desktop layerTaskMap =>
    cases hstep
    exact H

/-- The button messages tell the receiver of every button if and only if no report has a button but the
first. -/
theorem buttonsReplayed_iff (h : Stays layerId taskId s es s') (hreports : s.reports = [])
    (hbuttons : s.mouse.previousButtons = 0) :
    ButtonsReplayed taskId s'.reports ↔ ∀ b dx dy, .report b dx dy ∈ es → b ≤ 1 := by
  have hmem : ∀ b, b ∈ s'.reports.map (·.buttons) ↔ ∃ dx dy, .report b dx dy ∈ es := by
    intro b
    rw [buttons_of_run h.run, hreports, List.map_nil, List.nil_append, List.mem_filterMap]
    constructor
    · rintro ⟨e, he, hb⟩
      cases e with
      | report b' dx dy =>
        cases hb
        exact ⟨dx, dy, he⟩
      | others desktop layerTaskMap => cases hb
    · rintro ⟨dx, dy, he⟩
      exact ⟨_, he, rfl⟩
  constructor
  · intro H b dx dy he
    obtain ⟨r, hr, rfl⟩ := List.mem_map.mp ((hmem b).mpr ⟨dx, dy, he⟩)
    obtain ⟨pre, post, heq⟩ := List.append_of_mem hr
    rw [← (H pre r post heq).1]
    refine replay_le_one fun r' hr' => h.sends hreports r' ?_
    rw [heq]
    simp only [List.mem_append, List.mem_cons, List.not_mem_nil, or_false] at hr' ⊢
    tauto
  · intro H
    refine (h.run.invariant_of_forall (I := fun t => ButtonsReplayed taskId t.reports ∧
      replay taskId t.reports = t.mouse.previousButtons ∧ t.mouse.previousButtons ≤ 1)
      (P := fun t e => Proper layerId taskId t e ∧ ∀ b dx dy, e = .report b dx dy → b ≤ 1)
      (fun t e t' I hP hstep => ?_) ⟨?_, ?_, ?_⟩ fun pre e post t hes hrun =>
        ⟨h.proper pre e post t hes hrun, fun b dx dy he => H b dx dy (by simp [hes, he])⟩).1
    · obtain ⟨hreplayed, hreplay, hle⟩ := I
      cases e with
      | report b dx dy =>
        obtain ⟨r, hr, happend, hbefore, rfl, -, -, hafter⟩ := step_report hstep (hP.1.2 t' hstep) hP.1.1
        have hb := hP.2 _ dx dy rfl
        obtain ⟨hreplay', hchanges⟩ := Sends.replayed hr hb (hbefore ▸ hle) (hbefore ▸ hreplay)
        rw [happend, ← hafter, hr.previousButtons]
        exact ⟨buttonsReplayed_append hreplayed hreplay' hchanges, hreplay', hb⟩
      | others desktop layerTaskMap =>
        cases hstep
        exact ⟨hreplayed, hreplay, hle⟩
    · rw [hreports]
      intro pre r post heq
      exact absurd heq (by simp)
    · rw [hreports, hbuttons]
      rfl
    · rw [hbuttons]
      decide

/-- The events with the conditions of `Stays` checked on the way. -/
def execStays (layerId taskId : Nat) (s : MouseSession) : List Event → Option MouseSession
  | [] => if Attended layerId taskId s then some s else none
  | e :: es =>
    if Attended layerId taskId s ∧ s.ClosesNone e then
      (s.step e).bind fun s' => execStays layerId taskId s' es
    else none

theorem stays_of_exec (h : execStays layerId taskId s es = some s') :
    Stays layerId taskId s es s' := by
  induction es generalizing s with
  | nil =>
    obtain ⟨hattended, h⟩ := Option.ite_none_right_eq_some.mp h
    cases h
    exact ⟨.nil, .nil hattended, fun pre e post t hes => absurd hes (by simp)⟩
  | cons e es ih =>
    obtain ⟨⟨hattended, hcloses⟩, h⟩ := Option.ite_none_right_eq_some.mp h
    obtain ⟨t, hstep, h⟩ := Option.bind_eq_some_iff.mp h
    have hrest := ih h
    refine ⟨.cons hstep hrest.run, .cons hattended hstep hrest.attended, ?_⟩
    intro pre e' post t' hes hrun
    cases hrun with
    | nil =>
      obtain ⟨rfl, -⟩ := List.cons.inj hes
      exact hcloses
    | cons hfirst hrun =>
      obtain ⟨rfl, htail⟩ := List.cons.inj hes
      have hsame := hstep.symm.trans hfirst
      cases hsame
      exact hrest.closesNone _ e' post t' htail hrun

/-- The main window of the set-up is active, and its task is number 2. -/
def mainActive : Option MouseSession :=
  (Mouse.titledBoot.bind fun d => d.activate 3).map fun d =>
    ⟨Mouse.start d ⟨400, 300⟩, fun layerId => if layerId = 3 then some 2 else none, []⟩

/-- The left button is pressed within the window and released beside it. -/
def clicks : List Event := [.report 0 110 (-70), .report 1 0 0, .report 0 3 0]

theorem buttonsReplayed_iff_clicks : ∃ s s', mainActive = some s ∧
    execStays 3 2 s clicks = some s' ∧
    (ButtonsReplayed 2 s'.reports ↔ ∀ b dx dy, .report b dx dy ∈ clicks → b ≤ 1) := by
  have hexec : (mainActive.bind fun s => (execStays 3 2 s clicks).map fun _ =>
      (s.reports.length, s.mouse.previousButtons)) = some (0, 0) := by decide +kernel
  obtain ⟨s, hs, hexec⟩ := Option.bind_eq_some_iff.mp hexec
  obtain ⟨s', hs', hstart⟩ := Option.map_eq_some_iff.mp hexec
  obtain ⟨hreports, hbuttons⟩ := Prod.mk.inj hstart
  exact ⟨s, s', hs, hs', buttonsReplayed_iff (stays_of_exec hs')
    (List.eq_nil_of_length_eq_zero hreports) hbuttons⟩

/-- The right button goes down while the main window is active, and its task gets no message. -/
theorem not_buttonsReplayed_right : ¬ ∀ (layerId taskId : Nat) (s s' : MouseSession) (es : List Event),
    Stays layerId taskId s es s' → s.reports = [] → s.mouse.previousButtons = 0 →
      ButtonsReplayed taskId s'.reports := by
  intro h
  have hexec : (mainActive.bind fun s => (execStays 3 2 s [.report 2 0 0]).map fun s' =>
      (s.reports.length, s.mouse.previousButtons,
        s'.reports.map fun r => (r.buttons, replay 2 [r]))) = some (0, 0, [(2, 0)]) := by
    decide +kernel
  obtain ⟨s, -, hexec⟩ := Option.bind_eq_some_iff.mp hexec
  obtain ⟨s', hs', hstart⟩ := Option.map_eq_some_iff.mp hexec
  obtain ⟨hreports, hstart⟩ := Prod.mk.inj hstart
  obtain ⟨hbuttons, hlast⟩ := Prod.mk.inj hstart
  obtain ⟨r, hr, hlast⟩ := List.map_eq_singleton_iff.mp hlast
  obtain ⟨hbyte, hreplay⟩ := Prod.mk.inj hlast
  have hsame := (h 3 2 s s' _ (stays_of_exec hs') (List.eq_nil_of_length_eq_zero hreports) hbuttons
    [] r [] hr).1
  rw [List.nil_append, hreplay, hbyte] at hsame
  exact absurd hsame (by decide)

end MouseSession

end MikanOS
