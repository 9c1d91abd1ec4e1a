import GoQuai.Core.BlockTree
import Mathlib.Logic.Function.Basic

/-! # Manifests and ETX rollups of a zone chain

A zone block that is not coincident with its dominant chain passes its ETXs on
through the next coincident block. Two recursions decide which blocks that
covers. `worker.FinalizeAssemble` extends the stored manifest of the parent's
parent by the parent, restarting at a coincident parent; `CollectEtxRollup`
climbs from the parent's parent, checking genesis first and stopping at a
coincident block. The region reads the manifest in `CollectSubRollup` and
checks it against the rollup hash.

Both recursions delimit the segment of the ancestor path that starts at the
nearest coincident block, so the manifest lists exactly the blocks whose ETXs
the rollup concatenates, and the segments of successive coincident blocks
partition the chain.
-/

namespace GoQuai

open Function

variable {Tx : Type}

/-- `CalcOrder` as far as `IsDomCoincident` reads it: genesis is a prime block,
and any other header has the order its proof of work gives (`powOrder`, `none`
when the seal is invalid). -/
def calcOrder (powOrder : Header → Option Ctx) (h : Header) : Option Ctx :=
  if h.number = 0 then some .prime else powOrder h

/-- `IsDomCoincident`: the order is below the node's context; an error is not
coincident. -/
def isDomCoincident (powOrder : Header → Option Ctx) (nodeCtx : Ctx) (h : Header) : Bool :=
  match calcOrder powOrder h with
  | some order => decide (order.toNat < nodeCtx.toNat)
  | none => false

namespace BlockTree

variable (t : BlockTree) (coincident : Header → Bool) (etxs : Hash → List Tx)

/-- `HeaderChain.collectInclusiveEtxRollup`, fuelled by the number of the block. -/
def collectInclusiveEtxRollup : ℕ → Header → Except String (List Tx)
  | 0, _ => .error "fuel"
  | fuel + 1, b =>
      let newEtxs := etxs b.hash
      if b.number = 0 then
        if b.hash ≠ t.genesis.hash then .error "manifest builds on incorrect genesis"
        else .ok newEtxs
      else if coincident b then .ok newEtxs
      else
        match t.parentOf b with
        | none => .error "ancestor not found"
        | some ancestor =>
            match collectInclusiveEtxRollup fuel ancestor with
            | .error e => .error e
            | .ok etxRollup => .ok (etxRollup ++ newEtxs)

/-- `HeaderChain.CollectEtxRollup`: the rollup of the ancestors, excluding `b`. -/
def collectEtxRollup (b : Header) : Except String (List Tx) :=
  if b.number = 0 ∧ b.hash = t.genesis.hash then .ok (etxs b.hash)
  else
    match t.parentOf b with
    | none => .error "parent not found"
    | some parent => t.collectInclusiveEtxRollup coincident etxs (parent.number + 1) parent

/-- The ETX rollup `worker.FinalizeAssemble` hashes into the child of `parent`. -/
def finalizeEtxRollup (parent : Header) : Except String (List Tx) :=
  if coincident parent then .ok (etxs parent.hash)
  else
    match t.collectEtxRollup coincident etxs parent with
    | .error e => .error e
    | .ok etxRollup => .ok (etxRollup ++ etxs parent.hash)

end BlockTree

/-- The manifest `worker.FinalizeAssemble` writes for `parent` on a zone node,
reading the stored manifest of the parent's parent (`nil` when absent). -/
def finalizeManifest (coincident : Header → Bool) (manifests : Hash → Option (List Hash))
    (parent : Header) : List Hash :=
  if coincident parent then [parent.hash]
  else (manifests parent.parentHash).getD [] ++ [parent.hash]

/-- `HeaderChain.CollectSubRollup` on a region node: the pending ETXs of every
block of the sub manifest, checked against the block's rollup hash. -/
def collectSubRollupRegion (deriveSha : List Tx → Hash) (pendingEtxs : Hash → Option (List Tx))
    (subManifest : List Hash) (etxRollupHash : Hash) : Except String (List Tx) :=
  match subManifest.mapM pendingEtxs with
  | none => .error "pending etx not found"
  | some parts =>
      let subRollup := parts.flatten
      if deriveSha subRollup ≠ etxRollupHash then .error "sub rollup does not match sub rollup hash"
      else .ok subRollup

namespace BlockTree

variable (t : BlockTree) (coincident : Header → Bool)

/-- `Slice.init` writes the manifest `[genesis]`. -/
def initialManifests : Hash → Option (List Hash) :=
  update (fun _ => none) t.genesis.hash (some [t.genesis.hash])

/-- The manifest tables reached by finalizing blocks: genesis, or a block whose
parent's manifest `HeaderChain.Append` found. -/
inductive ManifestReachable : (Hash → Option (List Hash)) → Prop
  | init : ManifestReachable t.initialManifests
  | finalize {manifests : Hash → Option (List Hash)} {p : t.Node} :
      ManifestReachable manifests → (manifests p.1.parentHash).isSome ∨ p = t.root →
        ManifestReachable (update manifests p.1.hash (some (finalizeManifest coincident manifests p.1)))

/-- The coincidence of stored blocks. -/
def coincidentNode (x : t.Node) : Bool := coincident x.1

/-- The segment of the ancestor path of `x` from its nearest coincident block. -/
def window (x : t.Node) : List t.Node :=
  Ancestry.segment t.up t.height (t.coincidentNode coincident) x

/-- A manifest table every entry of which is the window of its block. -/
def ManifestsAreWindows (manifests : Hash → Option (List Hash)) : Prop :=
  ∀ h l, manifests h = some l → ∃ q : t.Node, q.1.hash = h ∧ l = (t.window coincident q).map (·.1.hash)

variable {t coincident}
variable {etxs : Hash → List Tx}

theorem window_of_coincident {x : t.Node} (hx : coincident x.1 = true) :
    t.window coincident x = [x] :=
  Ancestry.segment_of_marked hx

theorem window_of_up {x p : t.Node} (hx : coincident x.1 = false) (hup : t.up x = some p) :
    t.window coincident x = t.window coincident p ++ [x] :=
  Ancestry.segment_of_parent graded hx hup

theorem window_root : t.window coincident t.root = [t.root] :=
  Ancestry.segment_of_none graded up_root

/-- The inclusive rollup of a stored block is the concatenation of the ETXs of
its window. -/
theorem collectInclusiveEtxRollup_window :
    ∀ (fuel : ℕ) (x : t.Node), x.1.number < fuel →
      t.collectInclusiveEtxRollup coincident etxs fuel x.1 =
        .ok ((t.window coincident x).flatMap fun y => etxs y.1.hash) := by
  intro fuel
  induction fuel with
  | zero => intro x hx; omega
  | succ fuel ih =>
      intro x hx
      by_cases h0 : x.1.number = 0
      · -- genesis ends every rollup
        have hroot : x = t.root := eq_root_iff.mpr h0
        subst hroot
        rw [window_root]
        simp [collectInclusiveEtxRollup, root, t.genesis_number]
      · by_cases hc : coincident x.1 = true
        · simp [collectInclusiveEtxRollup, h0, hc, window_of_coincident hc]
        · obtain ⟨p, hup, hnum⟩ := exists_up (x := x) (by omega)
          have hcf : coincident x.1 = false := by simpa using hc
          simp only [collectInclusiveEtxRollup, h0, if_false, hc, up_eq_some_iff.mp hup,
            ih p (by omega), window_of_up hcf hup, List.flatMap_append]
          simp

/-- With a coincident genesis, the rollup `FinalizeAssemble` puts in the child
of `P` concatenates the ETXs of the window of `P`. -/
theorem finalizeEtxRollup_window (hroot : coincident t.genesis = true) (P : t.Node) :
    t.finalizeEtxRollup coincident etxs P.1 =
      .ok ((t.window coincident P).flatMap fun y => etxs y.1.hash) := by
  by_cases hc : coincident P.1 = true
  · simp [finalizeEtxRollup, hc, window_of_coincident hc]
  · have hne : P ≠ t.root := by
      rintro rfl
      exact hc hroot
    have hpos : 0 < P.1.number := by
      have := (eq_root_iff (x := P)).not.mp hne
      omega
    obtain ⟨p, hup, hnum⟩ := exists_up hpos
    have hcf : coincident P.1 = false := by simpa using hc
    have hgen : ¬(P.1.number = 0 ∧ P.1.hash = t.genesis.hash) := fun h => by omega
    simp only [finalizeEtxRollup, hc, collectEtxRollup, hgen, if_false, up_eq_some_iff.mp hup,
      collectInclusiveEtxRollup_window _ p (Nat.lt_succ_self _), window_of_up hcf hup,
      List.flatMap_append]
    simp

/-- From such a table, `FinalizeAssemble` writes the window of the block. -/
theorem finalizeManifest_window (hroot : coincident t.genesis = true)
    {manifests : Hash → Option (List Hash)} (hm : t.ManifestsAreWindows coincident manifests)
    {P : t.Node} (hpre : (manifests P.1.parentHash).isSome ∨ P = t.root) :
    finalizeManifest coincident manifests P.1 = (t.window coincident P).map (·.1.hash) := by
  by_cases hc : coincident P.1 = true
  · simp [finalizeManifest, hc, window_of_coincident hc]
  · have hne : P ≠ t.root := by
      rintro rfl
      exact hc hroot
    have hpos : 0 < P.1.number := by
      have := (eq_root_iff (x := P)).not.mp hne
      omega
    obtain ⟨p, hup, -⟩ := exists_up hpos
    have hcf : coincident P.1 = false := by simpa using hc
    obtain ⟨l, hl⟩ := Option.isSome_iff_exists.mp (hpre.resolve_right hne)
    obtain ⟨q, hq, rfl⟩ := hm _ _ hl
    -- the stored manifest is that of the parent
    have hqp : q = p := Node.ext_hash (by rw [hq, hash_of_up hup])
    subst hqp
    simp [finalizeManifest, hc, hl, window_of_up hcf hup]

theorem manifestReachable_windows (hroot : coincident t.genesis = true)
    {manifests : Hash → Option (List Hash)} (hreach : t.ManifestReachable coincident manifests) :
    t.ManifestsAreWindows coincident manifests := by
  induction hreach with
  | init =>
      intro h l hl
      by_cases hh : h = t.genesis.hash
      · subst hh
        simp only [initialManifests, update_self, Option.some.injEq] at hl
        exact ⟨t.root, rfl, by rw [← hl, window_root]; rfl⟩
      · simp [initialManifests, hh] at hl
  | finalize _ hpre ih =>
      rename_i manifests p _
      intro h l hl
      by_cases hh : h = p.1.hash
      · subst hh
        simp only [update_self, Option.some.injEq] at hl
        exact ⟨p, rfl, by rw [← hl, finalizeManifest_window hroot ih hpre]⟩
      · simp only [update_apply, hh, if_false] at hl
        exact ih h l hl

end BlockTree

/-- The region's check over a manifest, with the pending ETXs the zone produced
for its blocks, accepts and returns the concatenation it was hashed from. -/
theorem collectSubRollupRegion_of_pending (deriveSha : List Tx → Hash) (etxs : Hash → List Tx)
    (manifest : List Hash) :
    collectSubRollupRegion deriveSha (fun h => some (etxs h)) manifest
        (deriveSha (manifest.flatMap etxs)) = .ok (manifest.flatMap etxs) := by
  have hmap : manifest.mapM (fun h => some (etxs h)) = some (manifest.map etxs) := by
    induction manifest with
    | nil => rfl
    | cons h rest ih => simp [List.mapM_cons, ih]
  simp [collectSubRollupRegion, hmap, List.flatMap]

namespace BlockTree

variable {t : BlockTree}

theorem isDomCoincident_genesis (powOrder : Header → Option Ctx) :
    isDomCoincident powOrder .zone t.genesis = true := by
  simp [isDomCoincident, calcOrder, t.genesis_number, Ctx.toNat]


/-- On a zone node, from every manifest table reached by finalizing blocks,
the manifest `FinalizeAssemble` stores for a parent `P` lists, in chain order,
the window of `P`; the ETX rollup it hashes into the child concatenates the ETXs
of exactly those blocks, so the region's `CollectSubRollup` over the manifest
accepts and reproduces it; and the windows of the successive coincident blocks
partition the chain. -/
theorem manifest_rollup_windows (powOrder : Header → Option Ctx) (deriveSha : List Tx → Hash)
    (etxs : Hash → List Tx) {manifests : Hash → Option (List Hash)}
    (hreach : t.ManifestReachable (isDomCoincident powOrder .zone) manifests) (P : t.Node)
    (hpre : (manifests P.1.parentHash).isSome ∨ P = t.root) :
    finalizeManifest (isDomCoincident powOrder .zone) manifests P.1 =
        (t.window (isDomCoincident powOrder .zone) P).map (·.1.hash) ∧
      t.finalizeEtxRollup (isDomCoincident powOrder .zone) etxs P.1 =
        .ok ((finalizeManifest (isDomCoincident powOrder .zone) manifests P.1).flatMap etxs) ∧
      collectSubRollupRegion deriveSha (fun h => some (etxs h))
          (finalizeManifest (isDomCoincident powOrder .zone) manifests P.1)
          (deriveSha ((finalizeManifest (isDomCoincident powOrder .zone) manifests P.1).flatMap
            etxs)) =
        .ok ((finalizeManifest (isDomCoincident powOrder .zone) manifests P.1).flatMap etxs) ∧
      ((Ancestry.windows t.up t.height (t.coincidentNode (isDomCoincident powOrder .zone)) P).map
          (List.map (·.1.hash))).flatten = (Ancestry.path t.up t.height P).map (·.1.hash) := by
  have hroot := isDomCoincident_genesis (t := t) powOrder
  have hmanifest := finalizeManifest_window hroot (manifestReachable_windows hroot hreach) hpre
  refine ⟨hmanifest, ?_, collectSubRollupRegion_of_pending _ _ _, ?_⟩
  · rw [finalizeEtxRollup_window hroot P, hmanifest, List.flatMap_map]
  · rw [← List.map_flatten, Ancestry.flatten_windows graded]

end BlockTree

/-- After genesis is finalized, the manifest of the first block on top of it
is its window. -/
theorem manifest_rollup_windows_first :
    finalizeManifest (isDomCoincident (fun _ => some .zone) .zone)
        (update BlockTree.forkTree.initialManifests BlockTree.forkTree.root.1.hash
          (some (finalizeManifest (isDomCoincident (fun _ => some .zone) .zone)
            BlockTree.forkTree.initialManifests BlockTree.forkTree.root.1)))
        ⟨2, 1, 1, [0, 0]⟩ =
      (BlockTree.forkTree.window (isDomCoincident (fun _ => some .zone) .zone)
        ⟨⟨2, 1, 1, [0, 0]⟩, by decide⟩).map (·.1.hash) :=
  (BlockTree.manifest_rollup_windows (fun _ => some .zone) List.length (fun h : Hash => [h])
    (.finalize .init (.inr rfl)) ⟨⟨2, 1, 1, [0, 0]⟩, by decide⟩ (.inl (by decide))).1

end GoQuai
