import GoQuai.Core.BlockTree
import Mathlib.Logic.Function.Basic

/-! # The canonical-hash index of `HeaderChain`

`HeaderChain.SetCurrentHeader` keeps the table `number ↦ canonical hash` in
step with the head: a fast path when the head extends the previous one, and
otherwise a common-ancestor search through the table, a walk collecting the new
branch, a walk deleting the old one down to the fork, and the replay of the
collected stack. Each loop is fuelled by the number of the header it starts
from; running out of fuel or meeting a missing header is `none`, as are the
`nil` dereferences of the source.

The invariant `CanonicalIndex` says the table is exactly the ancestor path of
the current header. It holds initially and every `SetCurrentHeader` on a stored
head returns and keeps it, whether the head extends, rewinds or leaves for
another branch.
-/

namespace GoQuai

open Function

/-- A canonical-hash table: `rawdb` entries `number ↦ hash`. -/
abbrev CanonicalTable := ℕ → Option Hash

/-- `rawdb.ReadCanonicalHash`: the empty hash when there is no entry. -/
def readCanonicalHash (canon : CanonicalTable) (n : ℕ) : Hash := (canon n).getD zeroHash

/-- `rawdb.WriteCanonicalHash`. -/
def writeCanonicalHash (canon : CanonicalTable) (hash : Hash) (n : ℕ) : CanonicalTable :=
  update canon n (some hash)

/-- `rawdb.DeleteCanonicalHash`. -/
def deleteCanonicalHash (canon : CanonicalTable) (n : ℕ) : CanonicalTable :=
  update canon n none

/-- The database and in-memory state `SetCurrentHeader` reads and writes. -/
structure HeaderChain where
  canonical : CanonicalTable
  headBlockHash : Hash
  currentHeader : Header

namespace BlockTree

variable (t : BlockTree)

/-- `HeaderChain.GetHeaderByHash`. -/
def getHeaderByHash (hash : Hash) : Option Header := t.get hash

/-- The loop of `findCommonAncestor`: climb until the table names the header. -/
def findCommonAncestorLoop (canon : CanonicalTable) : ℕ → Header → Option Header
  | 0, _ => none
  | fuel + 1, h =>
      if readCanonicalHash canon h.number = h.hash then t.getHeaderByHash h.hash
      else
        match t.parentOf h with
        | some p => findCommonAncestorLoop canon fuel p
        | none => none

/-- `HeaderChain.findCommonAncestor`. -/
def findCommonAncestor (canon : CanonicalTable) (h : Header) : Option Header :=
  t.findCommonAncestorLoop canon (h.number + 1) h

/-- The first loop of `SetCurrentHeader`: push the new branch down to the
common header, stopping early on reaching genesis. -/
def hashStackLoop (common : Hash) : ℕ → Header → List Header → Option (List Header)
  | 0, _, _ => none
  | fuel + 1, h, stack =>
      if h.hash = common then some stack
      else
        match t.parentOf h with
        | none => none
        | some p =>
            if p.hash = t.genesis.hash then some (stack ++ [h])
            else hashStackLoop common fuel p (stack ++ [h])

/-- The second loop of `SetCurrentHeader`: delete the old branch's entries down
to the common header, stopping early on reaching genesis. -/
def deleteLoop (common : Hash) : ℕ → Header → CanonicalTable → Option CanonicalTable
  | 0, _, _ => none
  | fuel + 1, h, canon =>
      if h.hash = common then some canon
      else
        match t.parentOf h with
        | none => none
        | some p =>
            if p.hash = t.genesis.hash then some (deleteCanonicalHash canon h.number)
            else deleteLoop common fuel p (deleteCanonicalHash canon h.number)

/-- The third loop of `SetCurrentHeader`: write the stack from its bottom up. -/
def writeStack (canon : CanonicalTable) (stack : List Header) : CanonicalTable :=
  stack.foldr (fun h c => writeCanonicalHash c h.hash h.number) canon

/-- `HeaderChain.SetCurrentHeader`. -/
def setCurrentHeader (hc : HeaderChain) (head : Header) : Option HeaderChain :=
  let prev := hc.currentHeader
  if prev.hash = head.hash then some hc
  else
    let common := t.findCommonAncestor hc.canonical head
    let moved := { hc with headBlockHash := head.hash, currentHeader := head }
    if prev.hash = head.parentHash then
      some { moved with canonical := writeCanonicalHash hc.canonical head.hash head.number }
    else
      match common with
      | none => none
      | some common =>
          match t.hashStackLoop common.hash (head.number + 1) head [] with
          | none => none
          | some stack =>
              match t.deleteLoop common.hash (prev.number + 1) prev hc.canonical with
              | none => none
              | some canon => some { moved with canonical := writeStack canon stack }

/-- The state after the genesis block has been written: it is canonical at
number zero and it is the head. -/
def initialHeaderChain : HeaderChain where
  canonical := writeCanonicalHash (fun _ => none) t.genesis.hash 0
  headBlockHash := t.genesis.hash
  currentHeader := t.genesis

/-- The canonical table is the ancestor path of the current header, which is
stored, and has no entry above it. -/
structure CanonicalIndex (hc : HeaderChain) : Prop where
  current_stored : t.get hc.currentHeader.hash = some hc.currentHeader
  canonical_eq : ∀ n, hc.canonical n =
    if n ≤ hc.currentHeader.number then
      some (t.ancestor ⟨hc.currentHeader, current_stored⟩ n).1.hash
    else none

/-- The states reached from `initialHeaderChain` by `SetCurrentHeader` on
stored headers. -/
inductive Reachable : HeaderChain → Prop
  | init : Reachable t.initialHeaderChain
  | setCurrentHeader {hc hc' : HeaderChain} {head : Header} :
      Reachable hc → t.get head.hash = some head → t.setCurrentHeader hc head = some hc' →
        Reachable hc'

variable {t}

/-! ## Stored blocks as a chain -/

/-- The ancestors of `x` strictly above number `j`, from `x` down. -/
def above (x : t.Node) (j : ℕ) : List t.Node :=
  (List.range (x.1.number - j)).map fun i => t.ancestor x (x.1.number - i)

theorem above_of_le {x : t.Node} {j : ℕ} (hj : x.1.number ≤ j) : above x j = [] := by
  simp [above, Nat.sub_eq_zero_of_le hj]

theorem above_of_up {x p : t.Node} (hp : t.up x = some p) (hnum : p.1.number + 1 = x.1.number)
    {j : ℕ} (hj : j < x.1.number) : above x j = x :: above p j := by
  have hlen : x.1.number - j = (p.1.number - j) + 1 := by omega
  unfold above
  rw [hlen, List.range_succ_eq_map, List.map_cons, List.map_map, Nat.sub_zero, ancestor_self]
  congr 1
  apply List.map_congr_left
  intro i hi
  rw [List.mem_range] at hi
  simp only [comp_apply]
  rw [ancestor_of_up hp (by omega)]
  congr 1
  omega

theorem ancestor_mem_above {x : t.Node} {j n : ℕ} (hj : j < n) (hn : n ≤ x.1.number) :
    t.ancestor x n ∈ above x j := by
  refine List.mem_map.mpr ⟨x.1.number - n, List.mem_range.mpr (by omega), ?_⟩
  rw [Nat.sub_sub_self hn]

/-! ## The three loops -/

theorem readCanonicalHash_eq_hash {canon : CanonicalTable} {x : t.Node}
    (h : readCanonicalHash canon x.1.number = x.1.hash) : canon x.1.number = some x.1.hash := by
  unfold readCanonicalHash at h
  cases hc : canon x.1.number with
  | none =>
      rw [hc] at h
      have hz := x.2
      rw [← h] at hz
      simp [t.zero_absent] at hz
  | some v =>
      rw [hc] at h
      simp only [Option.getD_some] at h
      rw [h]

/-- Under the index of `cur`, the search from any stored block returns an
ancestor of it that is also an ancestor of `cur`. -/
theorem findCommonAncestorLoop_spec {cur : t.Node} {canon : CanonicalTable}
    (hcanon : ∀ n, canon n =
      if n ≤ cur.1.number then some (t.ancestor cur n).1.hash else none) :
    ∀ (fuel : ℕ) (x : t.Node), x.1.number < fuel →
      ∃ c : t.Node, t.findCommonAncestorLoop canon fuel x.1 = some c.1 ∧
        c.1.number ≤ x.1.number ∧ c.1.number ≤ cur.1.number ∧
        t.ancestor x c.1.number = c ∧ t.ancestor cur c.1.number = c := by
  intro fuel
  induction fuel with
  | zero => intro x hx; omega
  | succ fuel ih =>
      intro x hx
      by_cases hread : readCanonicalHash canon x.1.number = x.1.hash
      · -- the table names `x`: it lies on the current chain
        have hsome := readCanonicalHash_eq_hash hread
        rw [hcanon] at hsome
        split at hsome
        · rename_i hle
          have hanc : t.ancestor cur x.1.number = x := Node.ext_hash (Option.some.inj hsome)
          refine ⟨x, ?_, Nat.le_refl _, hle, ancestor_self x, hanc⟩
          simp [findCommonAncestorLoop, hread, getHeaderByHash, x.2]
        · cases hsome
      · -- otherwise `x` is not genesis, whose entry the table always holds
        have hpos : 0 < x.1.number := by
          by_contra h0
          have hroot : x = t.root := eq_root_iff.mpr (by omega)
          apply hread
          have h0' : (0 : ℕ) ≤ cur.1.number := Nat.zero_le _
          rw [hroot, readCanonicalHash, hcanon, if_pos (by rw [root_number]; exact h0'),
            root_number, ancestor_zero]
          rfl
        obtain ⟨p, hp, hnum⟩ := exists_up hpos
        obtain ⟨c, hc, hcp, hccur, hcanc, hccanc⟩ := ih p (by omega)
        refine ⟨c, ?_, by omega, hccur, ?_, hccanc⟩
        · simp [findCommonAncestorLoop, hread, up_eq_some_iff.mp hp, hc]
        · rw [ancestor_of_up hp (by omega), hcanc]

/-- The stack collected from `x` down to the common ancestor `c`. -/
theorem hashStackLoop_spec {c : t.Node} :
    ∀ (fuel : ℕ) (x : t.Node) (stack : List Header), x.1.number < fuel →
      c.1.number ≤ x.1.number → t.ancestor x c.1.number = c →
        t.hashStackLoop c.1.hash fuel x.1 stack =
          some (stack ++ (above x c.1.number).map Subtype.val) := by
  intro fuel
  induction fuel with
  | zero => intro x stack hx; omega
  | succ fuel ih =>
      intro x stack hx hle hanc
      by_cases hxc : x = c
      · subst hxc
        rw [above_of_le (Nat.le_refl _)]
        simp [hashStackLoop]
      · have hlt : c.1.number < x.1.number := by
          rcases Nat.lt_or_eq_of_le hle with h | h
          · exact h
          · exact absurd (by rw [← hanc, h, ancestor_self]) hxc
        have hxhash : x.1.hash ≠ c.1.hash := fun h => hxc (Node.ext_hash h)
        obtain ⟨p, hp, hnum⟩ := exists_up (x := x) (by omega)
        have hpanc : t.ancestor p c.1.number = c := by
          rw [← ancestor_of_up hp hlt, hanc]
        rw [above_of_up hp hnum hlt]
        by_cases hgen : p.1.hash = t.genesis.hash
        · -- the walk reaches genesis, which is then the common ancestor
          have hproot : p = t.root := hash_eq_genesis_iff.mp hgen
          have hc0 : c.1.number = 0 := by
            rw [hproot, root_number] at hnum
            omega
          have hrest : above p c.1.number = [] := above_of_le (by rw [hproot, root_number]; omega)
          simp [hashStackLoop, hxhash, up_eq_some_iff.mp hp, hgen, hrest]
        · simp only [hashStackLoop, hxhash, if_false, up_eq_some_iff.mp hp, hgen]
          rw [ih p (stack ++ [x.1]) (by omega) (by omega) hpanc]
          simp

/-- The deletion walk from `x` clears exactly the numbers above the common
ancestor `c` up to `x`. -/
theorem deleteLoop_spec {c : t.Node} :
    ∀ (fuel : ℕ) (x : t.Node) (canon : CanonicalTable), x.1.number < fuel →
      c.1.number ≤ x.1.number → t.ancestor x c.1.number = c →
        t.deleteLoop c.1.hash fuel x.1 canon =
          some (fun n => if c.1.number < n ∧ n ≤ x.1.number then none else canon n) := by
  intro fuel
  induction fuel with
  | zero => intro x canon hx; omega
  | succ fuel ih =>
      intro x canon hx hle hanc
      by_cases hxc : x = c
      · subst hxc
        simp only [deleteLoop, if_true]
        congr 1
        funext n
        rw [if_neg (by omega)]
      · have hlt : c.1.number < x.1.number := by
          rcases Nat.lt_or_eq_of_le hle with h | h
          · exact h
          · exact absurd (by rw [← hanc, h, ancestor_self]) hxc
        have hxhash : x.1.hash ≠ c.1.hash := fun h => hxc (Node.ext_hash h)
        obtain ⟨p, hp, hnum⟩ := exists_up (x := x) (by omega)
        have hpanc : t.ancestor p c.1.number = c := by
          rw [← ancestor_of_up hp hlt, hanc]
        by_cases hgen : p.1.hash = t.genesis.hash
        · have hproot : p = t.root := hash_eq_genesis_iff.mp hgen
          have hx1 : x.1.number = 1 := by rw [hproot, root_number] at hnum; omega
          have hc0 : c.1.number = 0 := by omega
          simp only [deleteLoop, hxhash, if_false, up_eq_some_iff.mp hp, hgen, if_true]
          congr 1
          funext n
          simp only [deleteCanonicalHash, update_apply]
          split_ifs <;> first | rfl | omega
        · simp only [deleteLoop, hxhash, if_false, up_eq_some_iff.mp hp, hgen]
          rw [ih p _ (by omega) (by omega) hpanc]
          congr 1
          funext n
          simp only [deleteCanonicalHash, update_apply]
          split_ifs <;> first | rfl | omega

/-- Replaying the stack of `x` above `j` writes the ancestors of `x` there. -/
theorem writeStack_above (canon : CanonicalTable) (j : ℕ) (x : t.Node) (n : ℕ) :
    writeStack canon ((above x j).map Subtype.val) n =
      if j < n ∧ n ≤ x.1.number then some (t.ancestor x n).1.hash else canon n := by
  induction x using graded.induction with
  | root x h =>
      have hx0 : x.1.number = 0 := graded.height_eq_zero_of_none h
      rw [above_of_le (x := x) (j := j) (by omega)]
      simp only [List.map_nil, writeStack, List.foldr_nil]
      rw [if_neg (by omega)]
  | step x p hp ih =>
      have hnum := graded.height_parent hp
      simp only [height] at hnum
      by_cases hj : j < x.1.number
      · rw [above_of_up hp hnum hj, List.map_cons, writeStack, List.foldr_cons, ← writeStack]
        simp only [writeCanonicalHash, update_apply]
        by_cases hn : n = x.1.number
        · subst hn
          simp [hj]
        · rw [if_neg hn, ih]
          by_cases hr : j < n ∧ n ≤ p.1.number
          · rw [if_pos hr, if_pos ⟨hr.1, by omega⟩, ancestor_of_up hp (by omega)]
          · rw [if_neg hr, if_neg (by omega)]
      · rw [above_of_le (x := x) (j := j) (by omega)]
        simp only [List.map_nil, writeStack, List.foldr_nil]
        rw [if_neg (by omega)]

/-! ## The invariant -/

theorem CanonicalIndex.of_node {hc : HeaderChain} {x : t.Node} (hcur : hc.currentHeader = x.1)
    (heq : ∀ n, hc.canonical n =
      if n ≤ x.1.number then some (t.ancestor x n).1.hash else none) :
    t.CanonicalIndex hc where
  current_stored := hcur ▸ x.2
  canonical_eq := by
    obtain ⟨x, hx⟩ := x
    simp only at hcur
    subst hcur
    exact heq

theorem initialHeaderChain_canonicalIndex : t.CanonicalIndex t.initialHeaderChain := by
  refine CanonicalIndex.of_node (x := t.root) rfl ?_
  intro n
  simp only [initialHeaderChain, writeCanonicalHash, update_apply, root_number]
  by_cases hn : n = 0
  · subst hn
    rw [ancestor_zero]
    rfl
  · simp [hn]

/-- The head extends the previous one: one entry is written. -/
theorem canonical_eq_of_extend {cur h : t.Node} (hup : t.up h = some cur)
    (hnum : cur.1.number + 1 = h.1.number) {canon : CanonicalTable}
    (hcanon : ∀ n, canon n = if n ≤ cur.1.number then some (t.ancestor cur n).1.hash else none)
    (n : ℕ) :
    writeCanonicalHash canon h.1.hash h.1.number n =
      if n ≤ h.1.number then some (t.ancestor h n).1.hash else none := by
  simp only [writeCanonicalHash, update_apply]
  by_cases hn : n = h.1.number
  · subst hn
    simp
  · rw [if_neg hn, hcanon]
    by_cases hle : n ≤ cur.1.number
    · rw [if_pos hle, if_pos (by omega), ancestor_of_up hup (by omega)]
    · rw [if_neg hle, if_neg (by omega)]

/-- The head leaves for another branch through the common ancestor `c`: the old
branch above `c` is deleted and the new one written. -/
theorem canonical_eq_of_fork {cur h c : t.Node} (hch : c.1.number ≤ h.1.number)
    (hcc : c.1.number ≤ cur.1.number) (hanch : t.ancestor h c.1.number = c)
    (hancc : t.ancestor cur c.1.number = c) {canon : CanonicalTable}
    (hcanon : ∀ n, canon n = if n ≤ cur.1.number then some (t.ancestor cur n).1.hash else none)
    (n : ℕ) :
    writeStack (fun n => if c.1.number < n ∧ n ≤ cur.1.number then none else canon n)
        ((above h c.1.number).map Subtype.val) n =
      if n ≤ h.1.number then some (t.ancestor h n).1.hash else none := by
  rw [writeStack_above]
  by_cases hnew : c.1.number < n ∧ n ≤ h.1.number
  · rw [if_pos hnew, if_pos hnew.2]
  · rw [if_neg hnew]
    show (if c.1.number < n ∧ n ≤ cur.1.number then none else canon n) = _
    by_cases hlow : n ≤ c.1.number
    · -- below the fork both chains agree
      have hshared : t.ancestor cur n = t.ancestor h n :=
        ancestor_eq_of_le hlow hcc hch (hancc.trans hanch.symm)
      rw [if_neg (show ¬(c.1.number < n ∧ n ≤ cur.1.number) by omega), hcanon,
        if_pos (show n ≤ cur.1.number by omega), if_pos (show n ≤ h.1.number by omega), hshared]
    · -- above the new head nothing is left
      rw [if_neg (show ¬n ≤ h.1.number by omega)]
      split_ifs with hold
      · rfl
      · rw [hcanon, if_neg (show ¬n ≤ cur.1.number by omega)]

/-- `SetCurrentHeader` on a stored head returns, makes it the current header
and keeps the canonical index. -/
theorem setCurrentHeader_canonicalIndex {hc : HeaderChain} (hinv : t.CanonicalIndex hc)
    {head : Header} (hhead : t.get head.hash = some head) :
    ∃ hc', t.setCurrentHeader hc head = some hc' ∧ hc'.currentHeader = head ∧
      t.CanonicalIndex hc' := by
  let cur : t.Node := ⟨hc.currentHeader, hinv.current_stored⟩
  let h : t.Node := ⟨head, hhead⟩
  have hcanon : ∀ n, hc.canonical n =
      if n ≤ cur.1.number then some (t.ancestor cur n).1.hash else none := hinv.canonical_eq
  by_cases hsame : hc.currentHeader.hash = head.hash
  · -- the same header: nothing changes
    have hcur : cur = h := Node.ext_hash hsame
    refine ⟨hc, by simp [setCurrentHeader, hsame], congrArg Subtype.val hcur, hinv⟩
  by_cases hext : hc.currentHeader.hash = head.parentHash
  · -- the fast path: the head is a child of the previous head
    have hne : head ≠ t.genesis := by
      rintro rfl
      have := hinv.current_stored
      rw [hext, t.genesis_root] at this
      cases this
    obtain ⟨p, hp, hpget, hnum⟩ := parentOf_of_ne_genesis hhead hne
    have hpc : p = cur.1 := by
      have := hinv.current_stored
      rw [hext, hpget] at this
      exact Option.some.inj this
    subst hpc
    have hup : t.up h = some cur := up_eq_some_iff.mpr hp
    refine ⟨⟨writeCanonicalHash hc.canonical head.hash head.number, head.hash, head⟩,
      ?_, rfl, ?_⟩
    · simp only [setCurrentHeader]
      rw [if_neg hsame, if_pos hext]
    · exact CanonicalIndex.of_node (x := h) rfl (canonical_eq_of_extend hup hnum hcanon)
  · -- a rewind or a switch of branch through the common ancestor
    obtain ⟨c, hc_eq, hch, hcc, hanch, hancc⟩ :=
      findCommonAncestorLoop_spec hcanon (head.number + 1) h (Nat.lt_succ_self _)
    have hstack := hashStackLoop_spec (c := c) (head.number + 1) h [] (Nat.lt_succ_self _) hch hanch
    have hdel := deleteLoop_spec (c := c) (hc.currentHeader.number + 1) cur hc.canonical
      (Nat.lt_succ_self _) hcc hancc
    refine ⟨⟨writeStack
        (fun n => if c.1.number < n ∧ n ≤ cur.1.number then none else hc.canonical n)
        ((above h c.1.number).map Subtype.val), head.hash, head⟩,
      ?_, rfl, CanonicalIndex.of_node (x := h) rfl
      (canonical_eq_of_fork hch hcc hanch hancc hcanon)⟩
    simp only [setCurrentHeader, hsame, hext, if_false, findCommonAncestor]
    rw [hc_eq]
    simp only
    rw [hstack]
    simp only [List.nil_append]
    rw [hdel]

/-- The canonical index holds in every reachable state, and every
`SetCurrentHeader` on a stored head, from any state where it holds, returns and
keeps it. -/
theorem canonical_index_invariant :
    (∀ hc, t.Reachable hc → t.CanonicalIndex hc) ∧
      ∀ hc, t.CanonicalIndex hc → ∀ head, t.get head.hash = some head →
        ∃ hc', t.setCurrentHeader hc head = some hc' ∧ hc'.currentHeader = head ∧
          t.CanonicalIndex hc' := by
  refine ⟨?_, fun hc hinv head hhead => setCurrentHeader_canonicalIndex hinv hhead⟩
  intro hc hreach
  induction hreach with
  | init => exact initialHeaderChain_canonicalIndex
  | setCurrentHeader _ hhead hset ih =>
      obtain ⟨hc'', hset', -, hinv''⟩ := setCurrentHeader_canonicalIndex ih hhead
      rw [hset] at hset'
      cases hset'
      exact hinv''

/-- Moving the head of a fresh chain to the tip of a branch keeps the index. -/
theorem canonical_index_invariant_fork :
    ∃ hc', forkTree.setCurrentHeader forkTree.initialHeaderChain ⟨3, 2, 2, [0, 0]⟩ = some hc' ∧
      hc'.currentHeader = ⟨3, 2, 2, [0, 0]⟩ ∧ forkTree.CanonicalIndex hc' :=
  canonical_index_invariant.2 _ (canonical_index_invariant.1 _ Reachable.init)
    ⟨3, 2, 2, [0, 0]⟩ (by decide)

end BlockTree

end GoQuai
