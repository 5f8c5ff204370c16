import MikanOS.Graphics.LayerEvents

/-! # Alt+A

The branch of `KernelMainNewStack` that activates the next window. The layer of the mouse is skipped where
the search starts, but not where the search comes by it. -/

namespace MikanOS

open LayerManager

/-- The loop `while (act_id == 1 || act_id == 2) { act_id += 1; }`. -/
def skipBackground (actId : Nat) : Nat := if actId = 1 ∨ actId = 2 then 3 else actId

/-- The loop over the IDs that `FindLayer` does not know, `none` if it takes more than `fuel` turns. -/
def LayerManager.seek (lm : LayerManager) (fuel actId : Nat) : Option Nat :=
  match fuel with
  | 0 => none
  | fuel + 1 =>
    if actId ≠ 0 ∧ (lm.findLayer actId).isNone then
      lm.seek fuel (if lm.latestId < actId then 0 else (actId + 1) % 2 ^ 32)
    else some actId

namespace Desktop

variable (d : Desktop)

/-- `act_id` before the loop over the layers. -/
def firstCandidate : Nat :=
  let actId := skipBackground ((d.activeLayer + 1) % 2 ^ 32)
  if actId = d.mouseLayer then (actId + 1) % 2 ^ 32 else actId

/-- `act_id` at the end of the search. -/
def search : Option Nat :=
  (d.manager.seek (d.manager.latestId + 2) d.firstCandidate).map skipBackground

/-- Alt+A goes down. -/
def altA : Option Desktop := d.search.bind d.activate

/-- A layer that Alt+A is for: neither the background nor the console nor the mouse. -/
def Eligible (id : Nat) : Prop :=
  id ∈ d.manager.ids ∧ id ≠ 1 ∧ id ≠ 2 ∧ id ≠ d.mouseLayer

/-- The search ends, and what it activates is no layer or one of those that it is for. -/
def ActivatesWindow : Prop :=
  ∃ id d', d.search = some id ∧ d.activate id = some d' ∧ (id = 0 ∨ d.Eligible id)

/-- Alt+A, pressed again and again, activates these layers and then none. -/
def Visits (d : Desktop) : List Nat → Prop
  | [] => ∃ d', d.altA = some d' ∧ d'.activeLayer = 0
  | id :: rest => ∃ d', d.altA = some d' ∧ d'.activeLayer = id ∧ id ≠ 0 ∧ d'.Visits rest

/-- Every layer that Alt+A is for is visited once before no layer is active again. -/
def VisitsAll : Prop := ∃ l, d.Visits l ∧ l.Nodup ∧ ∀ id, id ∈ l ↔ d.Eligible id

/-- The layers that Alt+A chooses from: the background, the console and the mouse are among them, and no
ID is above the latest one. -/
structure Populated : Prop where
  stacked : d.Stacked
  background : 1 ∈ d.manager.ids
  console : 2 ∈ d.manager.ids
  mouse : 2 < d.mouseLayer
  ids : ∀ id ∈ d.manager.ids, 0 < id ∧ id ≤ d.manager.latestId
  latestId : d.manager.latestId < 2 ^ 32

/-- The same layers, whatever is active and drawn. -/
structure SameLayers (d d' : Desktop) : Prop where
  stacked : d'.Stacked
  ids : d'.manager.ids = d.manager.ids
  mouseLayer : d'.mouseLayer = d.mouseLayer
  latestId : d'.manager.latestId = d.manager.latestId

/-- Whatever layer is active, Alt+A activates one that it is for or none; from none on it visits all of
them. -/
def Cycles : Prop :=
  (∀ d', d.SameLayers d' → d'.ActivatesWindow) ∧
    ∀ d', d.SameLayers d' → d'.activeLayer = 0 → d'.VisitsAll

end Desktop

/-! ## The search -/

/-- The least of some IDs from `start` on, or 0 if there is none. -/
def NextOf (ids : List Nat) (start r : Nat) : Prop :=
  (r ∈ ids ∧ start ≤ r ∧ ∀ id ∈ ids, start ≤ id → r ≤ id) ∨ (r = 0 ∧ ∀ id ∈ ids, id < start)

theorem NextOf.of_succ {ids : List Nat} {start r : Nat} (h : NextOf ids (start + 1) r)
    (hstart : start ∉ ids) : NextOf ids start r := by
  have hne : ∀ id ∈ ids, id ≠ start := fun id hid heq => hstart (heq ▸ hid)
  rcases h with ⟨hr, hle, hleast⟩ | ⟨hr, hall⟩
  · refine .inl ⟨hr, by omega, fun id hid hfrom => hleast id hid ?_⟩
    have := hne id hid
    omega
  · refine .inr ⟨hr, fun id hid => ?_⟩
    have := hne id hid
    have := hall id hid
    omega

namespace LayerManager

variable {lm : LayerManager}

theorem seek_zero (fuel : Nat) : lm.seek (fuel + 1) 0 = some 0 := by
  rw [seek, if_neg (by simp)]

theorem seek_spec (hids : ∀ id ∈ lm.ids, id ≤ lm.latestId) (hlatest : lm.latestId < 2 ^ 32)
    {fuel start : Nat} (hstart : start ≠ 0) (hle : start ≤ lm.latestId + 1)
    (hfuel : lm.latestId + 3 ≤ fuel + start) :
    ∃ r, lm.seek fuel start = some r ∧ NextOf lm.ids start r := by
  induction fuel generalizing start with
  | zero => omega
  | succ fuel ih =>
    rw [seek]
    by_cases hmem : start ∈ lm.ids
    · obtain ⟨layer, hlayer⟩ := Option.isSome_iff_exists.mp (isSome_findLayer.mpr hmem)
      rw [if_neg (by simp [hlayer])]
      exact ⟨start, rfl, .inl ⟨hmem, le_rfl, fun id _ h => h⟩⟩
    · rw [if_pos ⟨hstart, by rw [findLayer_eq_none.mpr hmem]; rfl⟩]
      have hne : ∀ id ∈ lm.ids, id ≠ start := fun id hid heq => hmem (heq ▸ hid)
      -- Past the latest ID the search gives up, by the test or by the overflow.
      by_cases hend : lm.latestId < start ∨ start + 1 = 2 ^ 32
      · have hnext : (if lm.latestId < start then 0 else (start + 1) % 2 ^ 32) = 0 := by
          rcases hend with h | h
          · exact if_pos h
          · rw [h, Nat.mod_self, ite_self]
        obtain ⟨fuel, rfl⟩ : ∃ n, fuel = n + 1 := Nat.exists_eq_add_of_le' (by omega)
        refine ⟨0, by rw [hnext, seek_zero], .inr ⟨rfl, fun id hid => ?_⟩⟩
        have := hne id hid
        have := hids id hid
        omega
      · obtain ⟨hle', hne'⟩ := not_or.mp hend
        rw [if_neg hle', Nat.mod_eq_of_lt (by omega)]
        obtain ⟨r, hr, hnext⟩ := @ih (start + 1) (by omega) (by omega) (by omega)
        exact ⟨r, hr, hnext.of_succ hmem⟩

theorem latestId_drawAll {lm' : LayerManager} {layerId : Nat} (h : lm.drawAll layerId = some lm') :
    lm'.latestId = lm.latestId := by
  rw [drawAll, drawLayer] at h
  split at h
  · cases h
    rfl
  · simp only [Option.bind_eq_bind, Option.bind_eq_some_iff] at h
    obtain ⟨layer, -, win, -, h⟩ := h
    cases h
    rfl

end LayerManager

namespace Desktop

variable {d d' : Desktop} {r : Nat}

theorem latestId_redraw {layerId : Nat} {active : Bool} {raise : LayerManager → LayerManager}
    {lm : LayerManager} (hraise : ∀ lm, (raise lm).latestId = lm.latestId)
    (h : d.redraw layerId active raise = some lm) : lm.latestId = d.manager.latestId := by
  simp only [redraw, Option.bind_eq_bind, Option.bind_eq_some_iff] at h
  obtain ⟨layer, -, win, -, h⟩ := h
  rw [latestId_drawAll h, hraise]
  rfl

theorem latestId_activate {layerId : Nat} (h : d.activate layerId = some d') :
    d'.manager.latestId = d.manager.latestId := by
  rw [activate] at h
  split at h
  · cases h
    rfl
  · obtain ⟨lm, hlm, h⟩ := Option.bind_eq_some_iff.mp h
    obtain ⟨lm', hlm', rfl⟩ := Option.map_eq_some_iff.mp h
    have hold : lm.latestId = d.manager.latestId := by
      rw [deactivate] at hlm
      split at hlm
      · exact latestId_redraw (fun _ => rfl) hlm
      · cases hlm
        rfl
    refine Eq.trans ?_ hold
    rw [activateNew] at hlm'
    split at hlm'
    · exact latestId_redraw (fun lm => by rw [raise, upDown_latestId, upDown_latestId]) hlm'
    · cases hlm'
      rfl

theorem activate_activeLayer {layerId : Nat} (h : d.activate layerId = some d') :
    d'.activeLayer = layerId := by
  rw [activate] at h
  split at h
  · next heq =>
    cases h
    exact heq
  · obtain ⟨lm, -, h⟩ := Option.bind_eq_some_iff.mp h
    obtain ⟨lm', -, rfl⟩ := Option.map_eq_some_iff.mp h
    rfl

/-- A layer that may be activated is, and the layers stay the same. -/
theorem activate_same {layerId : Nat} (S : d.Stacked)
    (h : layerId ≠ 0 → layerId ≠ d.mouseLayer ∧ layerId ∈ d.manager.ids) :
    ∃ d', d.activate layerId = some d' ∧ d'.activeLayer = layerId ∧ d.SameLayers d' := by
  obtain ⟨d', hactivate, S'⟩ := Layers.apply_spec S (e := .activate layerId) fun hne =>
    ⟨(h hne).1, isSome_findLayer.mpr (h hne).2⟩
  exact ⟨d', hactivate, activate_activeLayer hactivate, S', ids_activate hactivate,
    activate_mouseLayer hactivate, latestId_activate hactivate⟩

theorem SameLayers.populated (E : d.SameLayers d') (P : d.Populated) : d'.Populated where
  stacked := E.stacked
  background := E.ids ▸ P.background
  console := E.ids ▸ P.console
  mouse := E.mouseLayer ▸ P.mouse
  ids := E.ids ▸ E.latestId ▸ P.ids
  latestId := E.latestId ▸ P.latestId

theorem SameLayers.trans {d'' : Desktop} (E : d.SameLayers d') (E' : d'.SameLayers d'') :
    d.SameLayers d'' :=
  ⟨E'.stacked, E'.ids.trans E.ids, E'.mouseLayer.trans E.mouseLayer, E'.latestId.trans E.latestId⟩

theorem SameLayers.eligible_iff (E : d.SameLayers d') (id : Nat) : d'.Eligible id ↔ d.Eligible id := by
  rw [Eligible, Eligible, E.ids, E.mouseLayer]

/-- Where the search starts, if no ID overflows. -/
def firstId (d : Desktop) : Nat :=
  if max (d.activeLayer + 1) 3 = d.mouseLayer then d.mouseLayer + 1 else max (d.activeLayer + 1) 3

namespace Populated

variable (P : d.Populated)

include P

theorem mouse_mem : d.mouseLayer ∈ d.manager.ids := by
  obtain ⟨m, rest, hm, -⟩ := P.stacked.mouse
  exact isSome_findLayer.mp (Option.isSome_iff_exists.mpr ⟨m, hm⟩)

theorem activeLayer_mem (h : d.activeLayer ≠ 0) : d.activeLayer ∈ d.manager.ids := by
  obtain ⟨layer, m, rest, hlayer, -⟩ := P.stacked.active h
  exact isSome_findLayer.mp (Option.isSome_iff_exists.mpr ⟨layer, hlayer⟩)

theorem activeLayer_le : d.activeLayer ≤ d.manager.latestId := by
  by_cases h : d.activeLayer = 0
  · omega
  · exact (P.ids _ (P.activeLayer_mem h)).2

/-- The search starts at `firstId`, or at 0 where that overflows. -/
theorem firstCandidate_eq : d.firstCandidate = if d.firstId = 2 ^ 32 then 0 else d.firstId := by
  have hactive := P.activeLayer_le
  have hmouse := (P.ids _ P.mouse_mem).2
  have hlatest := P.latestId
  have hmouse' := P.mouse
  rw [firstCandidate, firstId, skipBackground]
  split_ifs <;> omega

/-- What the search finds. -/
theorem search_spec : ∃ r, d.search = some r ∧ NextOf d.manager.ids d.firstId r := by
  have hactive := P.activeLayer_le
  have hmouse := (P.ids _ P.mouse_mem).2
  have hmouse' := P.mouse
  have hfirst : 3 ≤ d.firstId ∧ d.firstId ≤ d.manager.latestId + 1 := by
    rw [firstId]
    split_ifs <;> omega
  have hseek : ∃ r, d.manager.seek (d.manager.latestId + 2) d.firstCandidate = some r ∧
      NextOf d.manager.ids d.firstId r := by
    rw [P.firstCandidate_eq]
    split
    · next hend =>
      refine ⟨0, seek_zero _, .inr ⟨rfl, fun id hid => ?_⟩⟩
      have := (P.ids id hid).2
      have := P.latestId
      omega
    · exact seek_spec (fun id hid => (P.ids id hid).2) P.latestId (by omega) hfirst.2 (by omega)
  obtain ⟨r, hr, hnext⟩ := hseek
  refine ⟨r, ?_, hnext⟩
  rw [search, hr, Option.map_some, skipBackground, if_neg]
  rcases hnext with ⟨-, hle, -⟩ | ⟨hzero, -⟩ <;> omega

theorem firstId_le_iff {id : Nat} (h : d.Eligible id) : d.firstId ≤ id ↔ d.activeLayer < id := by
  obtain ⟨hmem, h1, h2, hmouse⟩ := h
  have := (P.ids id hmem).1
  have := P.mouse
  rw [firstId]
  split_ifs <;> omega

/-- With a layer right below that of the mouse, the search never comes to the mouse. -/
theorem eligible_of_nextOf (hbelow : d.mouseLayer - 1 ∈ d.manager.ids)
    (h : NextOf d.manager.ids d.firstId r) :
    (d.Eligible r ∧ d.activeLayer < r ∧ ∀ id, d.Eligible id → d.activeLayer < id → r ≤ id) ∨
      (r = 0 ∧ ∀ id, d.Eligible id → id ≤ d.activeLayer) := by
  have hmouse := P.mouse
  rcases h with ⟨hr, hle, hleast⟩ | ⟨hr, hall⟩
  · have hE : d.Eligible r := by
      have hbelow' := hleast _ hbelow
      rw [firstId] at hle hbelow'
      refine ⟨hr, ?_, ?_, ?_⟩ <;> split_ifs at hle hbelow' <;> omega
    exact .inl ⟨hE, (P.firstId_le_iff hE).mp hle, fun id hid hlt =>
      hleast id hid.1 ((P.firstId_le_iff hid).mpr hlt)⟩
  · refine .inr ⟨hr, fun id hid => Nat.le_of_not_lt fun hlt => ?_⟩
    exact absurd ((P.firstId_le_iff hid).mpr hlt) (Nat.not_le_of_lt (hall id hid.1))

/-- One press of Alt+A. -/
theorem altA_spec (hbelow : d.mouseLayer - 1 ∈ d.manager.ids) :
    ∃ r d', d.search = some r ∧ d.activate r = some d' ∧ d'.activeLayer = r ∧ d.SameLayers d' ∧
      ((d.Eligible r ∧ d.activeLayer < r ∧ ∀ id, d.Eligible id → d.activeLayer < id → r ≤ id) ∨
        (r = 0 ∧ ∀ id, d.Eligible id → id ≤ d.activeLayer)) := by
  obtain ⟨r, hsearch, hnext⟩ := P.search_spec
  have hcases := P.eligible_of_nextOf hbelow hnext
  have henabled : r ≠ 0 → r ≠ d.mouseLayer ∧ r ∈ d.manager.ids := by
    intro hr
    rcases hcases with ⟨hE, -⟩ | ⟨hzero, -⟩
    · exact ⟨hE.2.2.2, hE.1⟩
    · exact absurd hzero hr
  obtain ⟨d', hactivate, hactive, E⟩ := activate_same P.stacked henabled
  exact ⟨r, d', hsearch, hactivate, hactive, E, hcases⟩

/-- The layers above the active one are visited in order. -/
theorem visits_above (hbelow : d.mouseLayer - 1 ∈ d.manager.ids) :
    ∃ l, d.Visits l ∧ l.Pairwise (· < ·) ∧ ∀ id, id ∈ l ↔ d.Eligible id ∧ d.activeLayer < id := by
  induction hn : d.manager.latestId - d.activeLayer using Nat.strong_induction_on generalizing d with
  | _ n ih =>
    obtain ⟨r, d', hsearch, hactivate, hactive, E, hcases⟩ := P.altA_spec hbelow
    have haltA : d.altA = some d' := by rw [altA, hsearch, Option.bind_some, hactivate]
    rcases hcases with ⟨hE, hlt, hleast⟩ | ⟨rfl, hall⟩
    · have hr := P.ids r hE.1
      have hdec : d'.manager.latestId - d'.activeLayer < n := by
        rw [E.latestId, hactive]
        omega
      obtain ⟨l, hvisits, hsorted, hmem⟩ :=
        ih _ hdec (E.populated P) (by rw [E.mouseLayer, E.ids]; exact hbelow) rfl
      rw [hactive] at hmem
      refine ⟨r :: l, ⟨d', haltA, hactive, by omega, hvisits⟩,
        List.pairwise_cons.mpr ⟨fun id hid => ((hmem id).mp hid).2, hsorted⟩, fun id => ?_⟩
      rw [List.mem_cons, hmem, E.eligible_iff]
      constructor
      · rintro (rfl | ⟨hid, hlt'⟩)
        · exact ⟨hE, hlt⟩
        · exact ⟨hid, hlt.trans hlt'⟩
      · rintro ⟨hid, hlt'⟩
        rcases (hleast id hid hlt').eq_or_lt with heq | hlt''
        · exact .inl heq.symm
        · exact .inr ⟨hid, hlt''⟩
    · refine ⟨[], ⟨d', haltA, hactive⟩, List.Pairwise.nil, fun id => ?_⟩
      simp only [List.not_mem_nil, false_iff, not_and, Nat.not_lt]
      exact hall id

/-- Without that layer, the search does not get past the mouse from any layer below. -/
theorem search_le_mouse (hbelow : d.mouseLayer - 1 ∉ d.manager.ids)
    (hlt : d.activeLayer < d.mouseLayer) :
    ∃ r, d.search = some r ∧ r ∈ d.manager.ids ∧ r ≤ d.mouseLayer := by
  have hmouse := P.mouse
  have hthree : d.mouseLayer ≠ 3 := by
    intro h
    rw [h] at hbelow
    exact hbelow P.console
  have hactive : d.activeLayer + 1 ≠ d.mouseLayer := by
    intro h
    rw [← h, Nat.add_sub_cancel] at hbelow
    exact hbelow (P.activeLayer_mem (by omega))
  have hfirst : d.firstId < d.mouseLayer := by
    rw [firstId]
    split_ifs <;> omega
  obtain ⟨r, hsearch, hnext⟩ := P.search_spec
  rcases hnext with ⟨hr, -, hleast⟩ | ⟨-, hall⟩
  · exact ⟨r, hsearch, hr, hleast _ P.mouse_mem hfirst.le⟩
  · exact absurd (hall _ P.mouse_mem) (Nat.not_lt_of_le hfirst.le)

theorem not_visits (hbelow : d.mouseLayer - 1 ∉ d.manager.ids) {l : List Nat}
    (hlt : d.activeLayer < d.mouseLayer) (hl : ∀ id ∈ l, id ≠ d.mouseLayer) : ¬ d.Visits l := by
  intro hvisits
  induction l generalizing d with
  | nil =>
    obtain ⟨r, hsearch, hr, -⟩ := P.search_le_mouse hbelow hlt
    obtain ⟨d', haltA, hzero⟩ := hvisits
    rw [altA, hsearch, Option.bind_some] at haltA
    rw [activate_activeLayer haltA] at hzero
    exact (P.ids r hr).1.ne' hzero
  | cons id l ih =>
    obtain ⟨r, hsearch, hr, hle⟩ := P.search_le_mouse hbelow hlt
    obtain ⟨d', haltA, hid, -, hvisits⟩ := hvisits
    rw [altA, hsearch, Option.bind_some] at haltA
    have hactive := activate_activeLayer haltA
    have hne : r ≠ d.mouseLayer := hactive ▸ hid ▸ hl id List.mem_cons_self
    obtain ⟨d'', hactivate, -, E⟩ := activate_same P.stacked fun _ => ⟨hne, hr⟩
    obtain rfl : d' = d'' := Option.some.inj (haltA.symm.trans hactivate)
    refine ih (E.populated P) (by rw [E.mouseLayer, E.ids]; exact hbelow) ?_ ?_ hvisits
    · rw [hactive, E.mouseLayer]
      omega
    · rw [E.mouseLayer]
      exact fun id hid => hl id (List.mem_cons_of_mem _ hid)

/-- Alt+A goes through the windows, whatever is active, if and only if there is a layer with the ID right
below that of the mouse layer. -/
theorem cycles_iff : d.Cycles ↔ d.mouseLayer - 1 ∈ d.manager.ids := by
  constructor
  · rintro ⟨-, hvisits⟩
    by_contra hbelow
    obtain ⟨d', -, hactive, E⟩ := activate_same P.stacked fun h => absurd (Eq.refl 0) h
    obtain ⟨l, hl, -, hmem⟩ := hvisits d' E hactive
    have P' := E.populated P
    refine P'.not_visits (by rw [E.mouseLayer, E.ids]; exact hbelow) ?_ ?_ hl
    · have := P'.mouse
      omega
    · exact fun id hid => ((hmem id).mp hid).2.2.2
  · intro hbelow
    have hbelow' {d' : Desktop} (E : d.SameLayers d') : d'.mouseLayer - 1 ∈ d'.manager.ids := by
      rw [E.mouseLayer, E.ids]
      exact hbelow
    refine ⟨fun d' E => ?_, fun d' E hactive => ?_⟩
    · obtain ⟨r, d'', hsearch, hactivate, -, -, hcases⟩ := (E.populated P).altA_spec (hbelow' E)
      exact ⟨r, d'', hsearch, hactivate, hcases.elim (fun h => .inr h.1) fun h => .inl h.1⟩
    · obtain ⟨l, hl, hsorted, hmem⟩ := (E.populated P).visits_above (hbelow' E)
      rw [hactive] at hmem
      refine ⟨l, hl, hsorted.imp Nat.ne_of_lt, fun id => (hmem id).trans (and_iff_left_of_imp ?_)⟩
      exact fun hid => ((E.populated P).ids id hid.1).1

end Populated

/-- The layers of the set-up after some events. -/
theorem populated_of_small {es : List Layers.Event}
    (h : (Layers.smallBoot.bind fun d₁ => Layers.system.exec d₁ es) = some d)
    (hvalues : 1 ∈ d.manager.ids ∧ 2 ∈ d.manager.ids ∧ 2 < d.mouseLayer ∧
      (∀ id ∈ d.manager.ids, 0 < id ∧ id ≤ d.manager.latestId) ∧ d.manager.latestId < 2 ^ 32) :
    d.Populated := by
  obtain ⟨d₁, hboot, hexec⟩ := Option.bind_eq_some_iff.mp h
  have hstacked : ∃ d', Layers.smallBoot = some d' ∧ d'.Stacked :=
    boot_spec rfl rfl rfl rfl (by decide)
  obtain ⟨d₁', hboot', S₁⟩ := hstacked
  obtain rfl : d₁ = d₁' := Option.some.inj (hboot.symm.trans hboot')
  have S : d.Stacked := (Transition.System.run_of_exec hexec).invariant
    (fun _ _ _ S h => Layers.system_step S h) S₁
  obtain ⟨h1, h2, hmouse, hids, hlatest⟩ := hvalues
  exact ⟨S, h1, h2, hmouse, hids, hlatest⟩

theorem cycles_iff_small : ∃ d, Layers.smallBoot = some d ∧
    (d.Cycles ↔ d.mouseLayer - 1 ∈ d.manager.ids) := by
  have hexec : ((Layers.smallBoot.bind fun d => Layers.system.exec d []).map fun d =>
      (d.manager.ids, d.mouseLayer, d.manager.latestId)) = some ([1, 2, 3, 4, 5], 5, 5) := by
    decide +kernel
  obtain ⟨d, hd, hvalues⟩ := Option.map_eq_some_iff.mp hexec
  obtain ⟨hids, hvalues⟩ := Prod.mk.inj hvalues
  obtain ⟨hmouse, hlatest⟩ := Prod.mk.inj hvalues
  have P := populated_of_small hd (by rw [hids, hmouse, hlatest]; decide)
  obtain ⟨d₁, hboot, hrest⟩ := Option.bind_eq_some_iff.mp hd
  cases hrest
  exact ⟨d, hboot, P.cycles_iff⟩

/-- The text window is closed and the main window active: Alt+A activates the layer of the mouse. -/
theorem not_cycles_closed : ¬ ∀ d : Desktop, d.Populated → d.Cycles := by
  intro h
  have hexec : ((Layers.smallBoot.bind fun d => Layers.system.exec d [.closeLayer 4, .activate 3]).map
      fun d => ((d.manager.ids, d.mouseLayer, d.manager.latestId), d.search)) =
        some (([1, 2, 3, 5], 5, 5), some 5) := by
    decide +kernel
  obtain ⟨d, hd, hvalues⟩ := Option.map_eq_some_iff.mp hexec
  obtain ⟨hvalues, hsearch⟩ := Prod.mk.inj hvalues
  obtain ⟨hids, hvalues⟩ := Prod.mk.inj hvalues
  obtain ⟨hmouse, hlatest⟩ := Prod.mk.inj hvalues
  have P := populated_of_small hd (by rw [hids, hmouse, hlatest]; decide)
  obtain ⟨id, d', hsearch', -, hright⟩ := (h d P).1 d ⟨P.stacked, rfl, rfl, rfl⟩
  obtain rfl : 5 = id := Option.some.inj (hsearch.symm.trans hsearch')
  rcases hright with hzero | ⟨-, -, -, hne⟩
  · exact absurd hzero (by decide)
  · exact hne hmouse.symm

end Desktop

end MikanOS
