import GoQuai.Core.EtxRouting

/-! # When routing delivers each ETX exactly once

`CollectNewlyConfirmedEtxs` gathers, for a block `x`, the newly confirmed ETXs
of the blocks from `x` back to (and excluding) the nearest proper ancestor with
the same `SubIndex`, filtered by `x`'s own location. Along a chain the windows
of the blocks located at one destination therefore partition the chain, and an
ETX reaches exactly the first such block at or after the block that emitted it,
as soon as "same `SubIndex`" and "same location" mean the same on the chain.
That holds on a region node whose blocks all sit in its own zones; prime
compares regions and filters by zone, which is where `newly_confirmed_etx_dropped`
breaks it.
-/

namespace GoQuai

namespace BlockTree

variable {t : BlockTree} {nodeCtx : Ctx}

/-- The ETXs of a sub rollup that a node in `nodeCtx` confirms for `loc`. -/
def newlyConfirmed (nodeCtx : Ctx) (rollup : Header → List Etx) (loc : Location) (y : Header) :
    List Etx :=
  filterConfirmationCtx (filterToSlice (rollup y) loc) nodeCtx

/-- The stored blocks whose `SubIndex` is that of `loc`. -/
def sameSubIndex (nodeCtx : Ctx) (loc : Location) (y : t.Node) : Bool :=
  decide (y.1.location.subIndex nodeCtx = loc.subIndex nodeCtx)

/-- The blocks a collection for `x` at `loc` walks over. -/
def confirmationWindow (nodeCtx : Ctx) (loc : Location) (x : t.Node) : List t.Node :=
  Ancestry.since t.up t.height (sameSubIndex nodeCtx loc) x

theorem collectNewlyConfirmedEtxs_window (hnz : nodeCtx ≠ .zone) (rollup : Header → List Etx)
    (loc : Location) :
    ∀ (fuel : ℕ) (x : t.Node), x.1.number < fuel →
      t.collectNewlyConfirmedEtxs nodeCtx (fun h => .ok (rollup h)) fuel x.1 loc =
        .ok ((confirmationWindow nodeCtx loc x).flatMap (fun y => newlyConfirmed nodeCtx rollup loc y.1),
          rollup x.1) := by
  have hlt : nodeCtx.toNat < Ctx.zone.toNat := by
    cases nodeCtx <;> simp_all [Ctx.toNat]
  intro fuel
  induction fuel with
  | zero => intro x hx; omega
  | succ fuel ih =>
      intro x hx
      by_cases h0 : x.1.number = 0
      · -- genesis ends every collection
        have hroot : x = t.root := eq_root_iff.mpr h0
        subst hroot
        have hwin : confirmationWindow nodeCtx loc t.root = [t.root] :=
          Ancestry.since_of_none graded up_root
        rw [hwin]
        simp [collectNewlyConfirmedEtxs, hlt, root, t.genesis_number, newlyConfirmed]
      · obtain ⟨p, hup, hnum⟩ := exists_up (x := x) (by omega)
        have hpar := up_eq_some_iff.mp hup
        cases hm : sameSubIndex nodeCtx loc p with
        | true =>
            -- the parent has the same sub index: the window is the block alone
            have hwin : confirmationWindow nodeCtx loc x = [x] :=
              Ancestry.since_of_marked graded hup hm
            have hsub : p.1.location.subIndex nodeCtx = loc.subIndex nodeCtx := by
              simpa [sameSubIndex] using hm
            rw [hwin]
            simp [collectNewlyConfirmedEtxs, hlt, h0, hpar, hsub, newlyConfirmed]
        | false =>
            have hwin : confirmationWindow nodeCtx loc x = confirmationWindow nodeCtx loc p ++ [x] :=
              Ancestry.since_of_parent graded hup hm
            have hsub : ¬ p.1.location.subIndex nodeCtx = loc.subIndex nodeCtx := by
              simpa [sameSubIndex] using hm
            rw [hwin, List.flatMap_append]
            simp only [collectNewlyConfirmedEtxs, hlt, h0, hpar, hsub, ih p (by omega), if_true,
              if_false]
            simp [newlyConfirmed]

/-- The ETXs a non-dominant `Append` passes down with a stored block. -/
theorem appendInboundEtxs_window (hnz : nodeCtx ≠ .zone) (rollup : Header → List Etx)
    (w : t.Node) :
    t.appendInboundEtxs nodeCtx (fun h => .ok (rollup h)) ⟨w.1, false, []⟩ =
      .ok ((confirmationWindow nodeCtx w.1.location w).flatMap
        fun y => newlyConfirmed nodeCtx rollup w.1.location y.1) := by
  simp [appendInboundEtxs, hnz, collectNewlyConfirmedEtxs_window hnz rollup _ _ w (Nat.lt_succ_self _)]

theorem deliveries_window (hnz : nodeCtx ≠ .zone) (rollup : Header → List Etx) (ws : List t.Node) :
    t.deliveries nodeCtx (fun h => .ok (rollup h)) (ws.map fun w => ⟨w.1, false, []⟩) =
      .ok (ws.map fun w => (w.1, (confirmationWindow nodeCtx w.1.location w).flatMap
        fun y => newlyConfirmed nodeCtx rollup w.1.location y.1)) := by
  induction ws with
  | nil => rfl
  | cons w ws ih =>
      simp only [deliveries, List.map_cons, List.mapM_cons] at ih ⊢
      rw [appendInboundEtxs_window hnz rollup w, ih]
      rfl

theorem inSameSliceAs_self (loc : Location) : loc.inSameSliceAs loc = true := by
  simp [Location.inSameSliceAs]

/-- At its own destination, an ETX confirmed in the node's context passes both filters. -/
theorem mem_newlyConfirmed_self {rollup : Header → List Etx} {e : Etx}
    (hctx : e.confirmationCtx = nodeCtx) (y : Header) :
    e ∈ newlyConfirmed nodeCtx rollup e.toLocation y ↔ e ∈ rollup y := by
  simp [newlyConfirmed, filterConfirmationCtx, filterToSlice, List.mem_filter, inSameSliceAs_self,
    hctx]

section Delivery

variable (hnz : nodeCtx ≠ .zone) (rollup : Header → List Etx) (top : t.Node) (e : Etx)
  (hctx : e.confirmationCtx = nodeCtx)
  (hmark : ∀ y ∈ Ancestry.path t.up t.height top,
    y.1.location.subIndex nodeCtx = e.toLocation.subIndex nodeCtx ↔ y.1.location = e.toLocation)
  {y₀ : t.Node} (hemit : ∀ y ∈ Ancestry.path t.up t.height top, e ∈ rollup y.1 ↔ y = y₀)

/-- The blocks located at the destination of `e`. -/
def atDestination (e : Etx) (y : t.Node) : Bool := decide (y.1.location = e.toLocation)

include hctx hmark hemit in
/-- A block of the chain at the destination of `e` passes it down exactly when
the emitting block lies in its window. -/
theorem delivers_iff {w : t.Node} (hw : w ∈ Ancestry.path t.up t.height top) :
    (w.1.location == e.toLocation &&
        ((confirmationWindow nodeCtx w.1.location w).flatMap
          fun y => newlyConfirmed nodeCtx rollup w.1.location y.1).contains e) =
      (atDestination e w && decide (y₀ ∈ Ancestry.since t.up t.height (atDestination e) w)) := by
  by_cases hloc : w.1.location = e.toLocation
  · -- on the chain, the sub-index marks are the destination marks
    have hwin : confirmationWindow nodeCtx w.1.location w =
        Ancestry.since t.up t.height (atDestination e) w := by
      rw [hloc]
      refine Ancestry.since_congr graded w fun y hy => ?_
      have hy' := Ancestry.mem_path_trans graded hw hy
      simp [sameSubIndex, atDestination, hmark y hy']
    have hmem : (∃ y ∈ Ancestry.since t.up t.height (atDestination e) w, e ∈ rollup y.1) ↔
        y₀ ∈ Ancestry.since t.up t.height (atDestination e) w := by
      constructor
      · rintro ⟨y, hy, he⟩
        have hyp := Ancestry.mem_path_trans graded hw (Ancestry.mem_path_of_mem_since graded hy)
        rwa [← (hemit y hyp).mp he]
      · intro h0
        have hyp := Ancestry.mem_path_trans graded hw (Ancestry.mem_path_of_mem_since graded h0)
        exact ⟨y₀, h0, (hemit y₀ hyp).mpr rfl⟩
    have hcontains : ((Ancestry.since t.up t.height (atDestination e) w).flatMap
        fun y => newlyConfirmed nodeCtx rollup e.toLocation y.1).contains e =
          decide (y₀ ∈ Ancestry.since t.up t.height (atDestination e) w) := by
      rw [Bool.eq_iff_iff, List.contains_iff_mem, List.mem_flatMap, decide_eq_true_iff, ← hmem]
      simp only [mem_newlyConfirmed_self hctx]
    rw [hwin, hloc, hcontains]
    simp [atDestination, hloc]
  · simp [atDestination, hloc]

include hnz hctx hmark hemit in
/-- Along a chain whose sub-index marks are its destination marks, non-dominant
appends deliver a newly confirmed ETX exactly once, to the first block of its
destination at or after the block that emitted it, and not at all before such
a block exists. -/
theorem delivered_exactly_once (hy₀ : y₀ ∈ Ancestry.path t.up t.height top) :
    t.deliveredCount nodeCtx (fun h => .ok (rollup h))
        ((Ancestry.path t.up t.height top).map fun w => ⟨w.1, false, []⟩) e =
      some (if ∃ w ∈ Ancestry.path t.up t.height top,
        w.1.location = e.toLocation ∧ y₀.1.number ≤ w.1.number then 1 else 0) := by
  rw [deliveredCount, deliveries_window hnz rollup]
  simp only [Except.toOption, Option.map_some, Option.some.injEq]
  rw [← List.countP_eq_length_filter, List.countP_map]
  have hcount := Ancestry.countP_mem_since graded (m := atDestination e) top hy₀
  have hcongr : (Ancestry.path t.up t.height top).countP
      ((fun d : Header × List Etx => d.1.location == e.toLocation && d.2.contains e) ∘
        fun w : t.Node => (w.1, (confirmationWindow nodeCtx w.1.location w).flatMap
          fun y => newlyConfirmed nodeCtx rollup w.1.location y.1)) =
      (Ancestry.path t.up t.height top).countP
        (fun w => atDestination e w && decide (y₀ ∈ Ancestry.since t.up t.height (atDestination e) w)) :=
    List.countP_congr fun w hw =>
      Iff.of_eq (congrArg (· = true) (delivers_iff rollup top e hctx hmark hemit hw))
  -- the two sides decide membership through different instances
  rw [hcongr]
  convert hcount using 4 <;> simp [atDestination, height]

end Delivery

/-- On a region node, `SubIndex` tells apart the locations of genesis and of
the region's own zones. -/
theorem subIndex_region_iff {r z₀ : ℕ} {loc : Location} (hloc : loc = [] ∨ ∃ z, loc = [r, z]) :
    loc.subIndex .region = Location.subIndex .region [r, z₀] ↔ loc = [r, z₀] := by
  rcases hloc with rfl | ⟨z, rfl⟩
  · -- genesis has no zone index
    simp only [Location.subIndex, Location.zone, reduceCtorEq]
  · simp only [Location.subIndex, Location.zone, Int.natCast_inj, List.cons.injEq, true_and, and_true]

end BlockTree

end GoQuai
