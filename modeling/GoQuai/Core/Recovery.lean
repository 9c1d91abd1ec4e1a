import GoQuai.Core.Canonical

/-! # Bad-block recovery

`CheckForBadHashAndRecover` looks the node's bad hash up and, when the block is
stored, calls `cleanCacheAndDatabaseTillBlock` on its parent. That walk starts
at the current header and deletes each header it visits, with its canonical
entry, number, termini, ETX set and (off zone) pending ETXs, moving to the
parent until the parent is the target or genesis; the target then becomes the
current header. Nothing checks that the target lies below the current header.

`nil` dereferences are `none`. The caches the function purges and the trie node
it deletes are not modelled.
-/

namespace GoQuai

open Function

/-- The database entries the walk deletes, by their key. -/
inductive Entry
  | block (hash : Hash)
  | headerNumber (hash : Hash)
  | termini (hash : Hash)
  | etxSet (hash : Hash)
  | pendingEtxs (hash : Hash)
  | pendingEtxsRollup (hash : Hash)
  deriving DecidableEq, Repr

/-- The entries deleted for one header. Off zone the pending ETXs of the
header's rollup manifest are deleted too, but the first, which a dom block
still references; a missing rollup (`nil`) or an empty manifest (the slice
`[1:]`) panics. -/
def deletionsOf (nodeCtx : Ctx) (pendingEtxsRollup : Hash → Option (List Hash)) (h : Header) :
    Option (List Entry) :=
  let base := [.block h.hash, .headerNumber h.hash, .termini h.hash, .etxSet h.hash]
  if nodeCtx = .zone then some base
  else
    match pendingEtxsRollup h.hash with
    | some (_ :: rest) =>
        some (base ++ rest.map .pendingEtxs ++ [.pendingEtxs h.hash, .pendingEtxsRollup h.hash])
    | _ => none

theorem block_mem_deletionsOf {nodeCtx : Ctx} {pendingEtxsRollup : Hash → Option (List Hash)}
    {h : Header} {entries : List Entry}
    (hd : deletionsOf nodeCtx pendingEtxsRollup h = some entries) : Entry.block h.hash ∈ entries := by
  unfold deletionsOf at hd
  split_ifs at hd
  · cases hd
    simp
  · split at hd
    · cases hd
      simp
    · cases hd

namespace BlockTree

variable (t : BlockTree) (nodeCtx : Ctx) (pendingEtxsRollup : Hash → Option (List Hash))

/-- The loop of `cleanCacheAndDatabaseTillBlock`, fuelled by the number of the
current header: the table after the deleted canonical entries, the entries
deleted and the hashes marked bad. -/
def cleanLoop (target : Hash) : ℕ → Header → CanonicalTable → List Entry → List Hash →
    Option (CanonicalTable × List Entry × List Hash)
  | 0, _, _, _, _ => none
  | fuel + 1, header, canon, deleted, badHashes => do
      let entries ← deletionsOf nodeCtx pendingEtxsRollup header
      let canon := deleteCanonicalHash canon header.number
      let deleted := deleted ++ entries
      let badHashes := badHashes ++ [header.hash]
      let parent ← t.parentOf header
      if parent.hash = target ∨ parent.hash = t.genesis.hash then
        some (canon, deleted, badHashes)
      else cleanLoop target fuel parent canon deleted badHashes

/-- `Slice.cleanCacheAndDatabaseTillBlock`: the header chain after the walk,
with the target as current header, the entries deleted and the bad hashes. -/
def cleanCacheAndDatabaseTillBlock (hc : HeaderChain) (hash : Hash) :
    Option (HeaderChain × List Entry × List Hash) :=
  if hash = hc.currentHeader.hash then some (hc, [], [])
  else do
    let (canon, deleted, badHashes) ←
      t.cleanLoop nodeCtx pendingEtxsRollup hash (hc.currentHeader.number + 1) hc.currentHeader
        hc.canonical [] []
    let current ← t.getHeaderByHash hash
    some ({ hc with canonical := canon, currentHeader := current }, deleted, badHashes)

/-- `Slice.CheckForBadHashAndRecover` for the node's bad hash. -/
def checkForBadHashAndRecover (hc : HeaderChain) (badHash : Hash) :
    Option (HeaderChain × List Entry × List Hash) :=
  match t.get badHash with
  | none => some (hc, [], [])
  | some badBlock => t.cleanCacheAndDatabaseTillBlock nodeCtx pendingEtxsRollup hc badBlock.parentHash

variable {t nodeCtx pendingEtxsRollup}

/-- An ancestor at another number has another hash. -/
theorem ancestor_hash_ne {x c : t.Node} {k : ℕ} (hk : k ≤ x.1.number) (hkc : k ≠ c.1.number) :
    (t.ancestor x k).1.hash ≠ c.1.hash := fun h => by
  have := congrArg (·.1.number) (Node.ext_hash h)
  simp only [height_ancestor hk] at this
  exact hkc this

section Walk

variable {entries : Header → List Entry}
  (hdel : ∀ y : t.Node, deletionsOf nodeCtx pendingEtxsRollup y.1 = some (entries y.1))
include hdel

/-- From `x` down to an ancestor `c` where the walk stops (the target or
genesis), past ancestors that are not the target, the walk deletes exactly the
blocks of `x`'s chain above `c`, with their canonical entries. -/
theorem cleanLoop_spec {c : t.Node} {target : Hash} (hstop : c.1.hash = target ∨ c = t.root) :
    ∀ (fuel : ℕ) (x : t.Node) (canon : CanonicalTable) (deleted : List Entry)
      (badHashes : List Hash), x.1.number < fuel → c.1.number < x.1.number →
        t.ancestor x c.1.number = c →
        (∀ k, c.1.number < k → k < x.1.number → (t.ancestor x k).1.hash ≠ target) →
          t.cleanLoop nodeCtx pendingEtxsRollup target fuel x.1 canon deleted badHashes =
            some (fun n => if c.1.number < n ∧ n ≤ x.1.number then none else canon n,
              deleted ++ (above x c.1.number).flatMap (fun y => entries y.1),
              badHashes ++ (above x c.1.number).map (·.1.hash)) := by
  intro fuel
  induction fuel with
  | zero => intro x canon deleted badHashes hx; omega
  | succ fuel ih =>
      intro x canon deleted badHashes hx hlt hanc hpass
      rcases exists_up (x := x) (by omega) with ⟨p, hp, hnum⟩
      have hpanc : t.ancestor p c.1.number = c := by
        rw [← ancestor_of_up hp hlt, hanc]
      rw [above_of_up hp hnum hlt]
      by_cases hpc : p = c
      · -- the parent is where the walk stops: it ends after `x`
        subst hpc
        have hhit : p.1.hash = target ∨ p.1.hash = t.genesis.hash :=
          hstop.imp id (fun h => hash_eq_genesis_iff.mpr h)
        rw [above_of_le (Nat.le_refl _)]
        simp only [cleanLoop, hdel x, up_eq_some_iff.mp hp, hhit, if_true, Option.bind_eq_bind,
          Option.bind_some, List.map_cons, List.map_nil, List.flatMap_cons, List.flatMap_nil,
          List.append_nil, Option.some.injEq, Prod.mk.injEq, and_true]
        funext n
        simp only [deleteCanonicalHash, update_apply]
        split_ifs <;> first | rfl | omega
      · -- the parent lies above `c`, so it is neither the target nor genesis
        have hcp : c.1.number < p.1.number := by
          rcases Nat.lt_or_ge c.1.number p.1.number with h | h
          · exact h
          · exact absurd (by rw [← hpanc, show c.1.number = p.1.number by omega, ancestor_self])
              hpc
        have hptarget : p.1.hash ≠ target := by
          have h := hpass p.1.number hcp (by omega)
          rwa [ancestor_of_up hp (by omega), ancestor_self] at h
        have hpgen : p.1.hash ≠ t.genesis.hash := fun h => by
          have := congrArg (·.1.number) (hash_eq_genesis_iff.mp h)
          simp only [root_number] at this
          omega
        have hppass : ∀ k, c.1.number < k → k < p.1.number → (t.ancestor p k).1.hash ≠ target := by
          intro k hck hkp
          rw [← ancestor_of_up hp (by omega)]
          exact hpass k hck (by omega)
        simp only [cleanLoop, hdel x, up_eq_some_iff.mp hp, hptarget, hpgen, or_self, if_false,
          Option.bind_eq_bind, Option.bind_some]
        rw [ih p _ _ _ (by omega) hcp hpanc hppass]
        simp only [List.map_cons, List.flatMap_cons, List.append_assoc, List.singleton_append,
          Option.some.injEq, Prod.mk.injEq, and_true]
        funext n
        simp only [deleteCanonicalHash, update_apply]
        split_ifs <;> first | rfl | omega

/-- A target off the canonical chain is never met: the walk runs down to
genesis, deleting every block of the current chain above it, and leaves a
table that names genesis only. -/
theorem cleanCacheAndDatabaseTillBlock_off_chain {hc : HeaderChain} (hinv : t.CanonicalIndex hc)
    (hpos : 0 < hc.currentHeader.number) {c : t.Node}
    (hoff : hc.canonical c.1.number ≠ some c.1.hash) :
    ∃ hc', t.cleanCacheAndDatabaseTillBlock nodeCtx pendingEtxsRollup hc c.1.hash =
        some (hc',
          (above ⟨hc.currentHeader, hinv.current_stored⟩ 0).flatMap (fun y => entries y.1),
          (above ⟨hc.currentHeader, hinv.current_stored⟩ 0).map (·.1.hash)) ∧
      hc'.currentHeader = c.1 ∧
      ∀ n, hc'.canonical n = if n = 0 then some t.genesis.hash else none := by
  let cur : t.Node := ⟨hc.currentHeader, hinv.current_stored⟩
  -- no block of the current chain is `c`, or the table would name it
  have hmiss : ∀ k ≤ cur.1.number, (t.ancestor cur k).1.hash ≠ c.1.hash := by
    intro k hk h
    have hkc : t.ancestor cur k = c := Node.ext_hash h
    have hnum : c.1.number = k := by rw [← hkc, height_ancestor hk]
    apply hoff
    rw [hinv.canonical_eq, if_pos (hnum ▸ hk)]
    exact congrArg (fun y : t.Node => some y.1.hash) (hnum ▸ hkc)
  have hne : c.1.hash ≠ hc.currentHeader.hash := fun h =>
    hmiss cur.1.number (Nat.le_refl _) (by rw [ancestor_self]; exact h.symm)
  have hloop := cleanLoop_spec hdel (c := t.root) (Or.inr rfl)
    (hc.currentHeader.number + 1) cur hc.canonical [] [] (Nat.lt_succ_self _)
    (by rw [root_number]; exact hpos) (by rw [root_number, ancestor_zero])
    (fun k _ hkx => hmiss k (Nat.le_of_lt hkx))
  rw [root_number] at hloop
  refine ⟨{ hc with
      canonical := fun n => if 0 < n ∧ n ≤ cur.1.number then none else hc.canonical n,
      currentHeader := c.1 }, ?_, rfl, ?_⟩
  · simp only [cleanCacheAndDatabaseTillBlock, if_neg hne]
    rw [hloop]
    simp only [List.nil_append, Option.bind_eq_bind, Option.bind_some, getHeaderByHash, c.2]
    rfl
  · intro n
    show (if 0 < n ∧ n ≤ hc.currentHeader.number then none else hc.canonical n) = _
    rw [hinv.canonical_eq]
    rcases Nat.eq_zero_or_pos n with rfl | hn
    · simp [ancestor_zero, root]
    · rw [if_neg (Nat.ne_of_gt hn)]
      split_ifs <;> first | rfl | omega

end Walk

theorem check_for_bad_hash_and_recover_deletes_canonical_chain {hc : HeaderChain}
    (hdel : ∀ y : t.Node, (deletionsOf nodeCtx pendingEtxsRollup y.1).isSome)
    (hinv : t.CanonicalIndex hc) (hpos : 0 < hc.currentHeader.number)
    {badHash : Hash} {b : Header} (hb : t.get badHash = some b) {c : t.Node}
    (hcb : c.1.hash = b.parentHash) (hoff : hc.canonical c.1.number ≠ some c.1.hash) :
    ∃ hc' deleted badHashes,
      t.checkForBadHashAndRecover nodeCtx pendingEtxsRollup hc badHash =
        some (hc', deleted, badHashes) ∧
      (∀ n, 0 < n → ∀ h, hc.canonical n = some h → h ∈ badHashes ∧ Entry.block h ∈ deleted) ∧
      hc'.currentHeader = c.1 ∧ ¬ t.CanonicalIndex hc' := by
  let entries := fun h => (deletionsOf nodeCtx pendingEtxsRollup h).getD []
  have hdel' : ∀ y : t.Node, deletionsOf nodeCtx pendingEtxsRollup y.1 = some (entries y.1) := by
    intro y
    rcases Option.isSome_iff_exists.mp (hdel y) with ⟨es, hes⟩
    simp [entries, hes]
  rcases cleanCacheAndDatabaseTillBlock_off_chain hdel' hinv hpos hoff with
    ⟨hc', hclean, hcur, hcanon⟩
  let cur : t.Node := ⟨hc.currentHeader, hinv.current_stored⟩
  refine ⟨hc', (above cur 0).flatMap (fun y => entries y.1), (above cur 0).map (·.1.hash), ?_, ?_,
    hcur, ?_⟩
  · simp only [checkForBadHashAndRecover, hb, ← hcb]
    exact hclean
  · -- every block of the old chain above genesis is marked bad and deleted
    intro n hn h hh
    rw [hinv.canonical_eq] at hh
    split_ifs at hh with hle
    cases hh
    have hmem := ancestor_mem_above (x := cur) hn hle
    exact ⟨List.mem_map_of_mem hmem,
      List.mem_flatMap.mpr ⟨_, hmem, block_mem_deletionsOf (hdel' _)⟩⟩
  · -- `c` lies above genesis, where the table now names nothing
    intro hidx
    have hc0 : c.1.number ≠ 0 := fun h0 => by
      have hroot : c = t.root := eq_root_iff.mpr h0
      subst hroot
      apply hoff
      rw [hinv.canonical_eq, root_number, if_pos (Nat.zero_le _), ancestor_zero]
    have h := hidx.canonical_eq c.1.number
    rw [hcanon, if_neg hc0] at h
    -- the table would name `c`, but it is empty there
    split_ifs at h with hle
    rw [hcur] at hle
    exact hle (Nat.le_refl _)

/-- The fork tree after its head has moved to the tip `4` of the short branch. -/
def recoveryChain : HeaderChain :=
  (forkTree.setCurrentHeader forkTree.initialHeaderChain ⟨4, 1, 1, [0, 1]⟩).getD
    forkTree.initialHeaderChain

theorem recoveryChain_canonicalIndex : forkTree.CanonicalIndex recoveryChain := by
  have hhead : forkTree.get (⟨4, 1, 1, [0, 1]⟩ : Header).hash = some ⟨4, 1, 1, [0, 1]⟩ := by
    decide
  rcases setCurrentHeader_canonicalIndex forkTree.initialHeaderChain_canonicalIndex hhead with
    ⟨hc', hset, -, hinv⟩
  rw [recoveryChain, hset, Option.getD_some]
  exact hinv

theorem check_for_bad_hash_and_recover_deletes_canonical_chain_fork :
    (∀ y : forkTree.Node, (deletionsOf .zone (fun _ => none) y.1).isSome) ∧
      forkTree.CanonicalIndex recoveryChain ∧ 0 < recoveryChain.currentHeader.number ∧
      forkTree.get 3 = some ⟨3, 2, 2, [0, 0]⟩ ∧ recoveryChain.canonical 1 ≠ some 2 ∧
      ∃ hc' deleted badHashes,
        forkTree.checkForBadHashAndRecover .zone (fun _ => none) recoveryChain 3 =
          some (hc', deleted, badHashes) ∧
        (∀ n, 0 < n → ∀ h, recoveryChain.canonical n = some h →
          h ∈ badHashes ∧ Entry.block h ∈ deleted) ∧
        hc'.currentHeader = ⟨2, 1, 1, [0, 0]⟩ ∧ ¬ forkTree.CanonicalIndex hc' := by
  have hdel : ∀ y : forkTree.Node, (deletionsOf .zone (fun _ => none) y.1).isSome := by
    simp [deletionsOf]
  have hpos : 0 < recoveryChain.currentHeader.number := by decide
  have hoff : recoveryChain.canonical 1 ≠ some 2 := by decide
  exact ⟨hdel, recoveryChain_canonicalIndex, hpos, by decide, hoff,
    check_for_bad_hash_and_recover_deletes_canonical_chain hdel recoveryChain_canonicalIndex hpos
      (b := ⟨3, 2, 2, [0, 0]⟩) (by decide) (c := ⟨⟨2, 1, 1, [0, 0]⟩, by decide⟩) rfl hoff⟩

end BlockTree

end GoQuai
