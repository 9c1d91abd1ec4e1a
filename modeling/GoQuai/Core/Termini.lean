import GoQuai.Core.BlockTree
import Mathlib.Logic.Function.Basic

/-! # Termini and the previous coincident reference check

`Slice.pcrc` computes the termini of a block from those of its parent: one
entry per subordinate chain, holding the last block that chain produced, and
the terminus, the last block appended by the dominant chain. `Slice.Append`
runs it after its known-block check and writes the result in the same batch as
the header, so the termini of a block exist exactly when it was appended.

The invariant: along every run of successful appends, the stored termini of a
block are its nearest ancestors-or-self with each sub index, and its nearest
ancestor-or-self appended with `domOrigin` (every block, on a prime node), with
genesis when there is none. A dominant append is rejected by the reference
check exactly when its parent's terminus differs from the dominant one.
-/

namespace GoQuai

open Function

/-- `c_terminusIndex`. -/
def cTerminusIndex : ℕ := 3

/-- The errors `pcrc` returns. -/
inductive PcrcError
  | subNotSyncedToDom
  | cyclicReference
  deriving DecidableEq, Repr

/-- `s[i] = v` on a Go slice; an index out of range panics (`none`). -/
def setIndex (l : List Hash) (i : Int) (v : Hash) : Option (List Hash) :=
  if 0 ≤ i ∧ i < l.length then some (l.set i.toNat v) else none

/-- `s[i]` on a Go slice; an index out of range panics (`none`). -/
def getIndex (l : List Hash) (i : Int) : Option Hash :=
  if 0 ≤ i then l[i.toNat]? else none

/-- `Slice.pcrc` without its batch write: the dominant terminus to pass down and
the new termini, or an error. `none` is a panic on an out-of-range sub index. -/
def pcrc (nodeCtx : Ctx) (termini : Hash → Option (List Hash)) (header : Header)
    (domTerminus : Hash) (domOrigin : Bool) : Option (Except PcrcError (Hash × List Hash)) :=
  let parentTermini := (termini header.parentHash).getD []
  if parentTermini.length ≠ 4 then some (.error .subNotSyncedToDom)
  else
    let sub := header.location.subIndex nodeCtx
    let withSub := if nodeCtx ≠ .zone then setIndex parentTermini sub header.hash
      else some parentTermini
    match withSub with
    | none => none
    | some newTermini =>
        let terminus := if nodeCtx = .prime ∨ domOrigin = true then header.hash
          else parentTermini.getD cTerminusIndex zeroHash
        let newTermini := newTermini.set cTerminusIndex terminus
        if domOrigin = true ∧ parentTermini.getD cTerminusIndex zeroHash ≠ domTerminus then
          some (.error .cyclicReference)
        else if nodeCtx = .zone then some (.ok (zeroHash, newTermini))
        else (getIndex parentTermini sub).map fun d => .ok (d, newTermini)

/-- The termini `pcrc` builds from the parent's `[a0, a1, a2, a3]`. -/
def nextTermini (nodeCtx : Ctx) (header : Header) (domOrigin : Bool) (a0 a1 a2 a3 : Hash) :
    List Hash :=
  let pick := fun (i : ℕ) a => if header.location.subIndex nodeCtx = i then header.hash else a
  [pick 0 a0, pick 1 a1, pick 2 a2,
    if nodeCtx = .prime ∨ domOrigin = true then header.hash else a3]

/-- The sub index can be written into four termini: always on a zone node,
where it is not written at all. -/
def SubIndexInRange (nodeCtx : Ctx) (header : Header) : Prop :=
  nodeCtx = .zone ∨ ∃ k : ℕ, k < 4 ∧ header.location.subIndex nodeCtx = k

theorem pcrc_of_parent {nodeCtx : Ctx} {termini : Hash → Option (List Hash)} {header : Header}
    (domTerminus : Hash) (domOrigin : Bool) {a0 a1 a2 a3 : Hash}
    (hl : termini header.parentHash = some [a0, a1, a2, a3])
    (hsub : SubIndexInRange nodeCtx header) :
    ∃ d, pcrc nodeCtx termini header domTerminus domOrigin =
      if domOrigin = true ∧ a3 ≠ domTerminus then some (.error .cyclicReference)
      else some (.ok (d, nextTermini nodeCtx header domOrigin a0 a1 a2 a3)) := by
  rcases hsub with hz | ⟨k, hk, hkeq⟩
  · subst hz
    refine ⟨zeroHash, ?_⟩
    simp only [pcrc, hl, Option.getD_some, nextTermini, Location.subIndex_zone]
    split_ifs <;> simp_all [cTerminusIndex]
  · have hnz : nodeCtx ≠ .zone := by
      rintro rfl
      simp at hkeq
    -- the sub index is one of the four positions, which `setIndex` and `getIndex` reach
    have hset : setIndex [a0, a1, a2, a3] (header.location.subIndex nodeCtx) header.hash =
        some ([a0, a1, a2, a3].set k header.hash) := by
      rw [hkeq, setIndex, if_pos (by simp; omega), Int.toNat_natCast]
    have hget : getIndex [a0, a1, a2, a3] (header.location.subIndex nodeCtx) =
        some ([a0, a1, a2, a3].getD k zeroHash) := by
      rw [hkeq, getIndex, if_pos (by omega), Int.toNat_natCast, List.getD_eq_getElem?_getD,
        List.getElem?_eq_getElem (by simp; omega), Option.getD_some]
    have hnext : ([a0, a1, a2, a3].set k header.hash).set cTerminusIndex
        (if nodeCtx = .prime ∨ domOrigin = true then header.hash else [a0, a1, a2, a3].getD cTerminusIndex zeroHash) =
        nextTermini nodeCtx header domOrigin a0 a1 a2 a3 := by
      obtain rfl | rfl | rfl | rfl : k = 0 ∨ k = 1 ∨ k = 2 ∨ k = 3 := by omega
      all_goals simp [nextTermini, hkeq, cTerminusIndex]
    refine ⟨[a0, a1, a2, a3].getD k zeroHash, ?_⟩
    simp only [pcrc, hl, Option.getD_some, List.length_cons, List.length_nil, ne_eq, hnz, not_false_eq_true,
      if_true, hset, hget, hnext, Option.map_some, if_false]
    rfl

theorem pcrc_of_not_inRange {nodeCtx : Ctx} {termini : Hash → Option (List Hash)}
    {header : Header} {domTerminus : Hash} {domOrigin : Bool} {a0 a1 a2 a3 : Hash}
    (hl : termini header.parentHash = some [a0, a1, a2, a3])
    (hsub : ¬SubIndexInRange nodeCtx header) :
    pcrc nodeCtx termini header domTerminus domOrigin = none := by
  simp only [SubIndexInRange, not_or, not_exists, not_and] at hsub
  have hout : ¬(0 ≤ header.location.subIndex nodeCtx ∧
      header.location.subIndex nodeCtx < 4) := by
    rintro ⟨h0, h4⟩
    apply hsub.2 (header.location.subIndex nodeCtx).toNat (by omega)
    omega
  simp [pcrc, hl, setIndex, hsub.1, hout]

/-- A successful `pcrc` builds `nextTermini`. -/
theorem pcrc_ok_newTermini {nodeCtx : Ctx} {termini : Hash → Option (List Hash)}
    {header : Header} {domTerminus : Hash} {domOrigin : Bool} {a0 a1 a2 a3 d : Hash}
    {newTermini : List Hash} (hl : termini header.parentHash = some [a0, a1, a2, a3])
    (h : pcrc nodeCtx termini header domTerminus domOrigin = some (.ok (d, newTermini))) :
    newTermini = nextTermini nodeCtx header domOrigin a0 a1 a2 a3 := by
  by_cases hsub : SubIndexInRange nodeCtx header
  · obtain ⟨d', hd'⟩ := pcrc_of_parent domTerminus domOrigin hl hsub
    rw [hd'] at h
    split_ifs at h
    · cases h
    · cases h
      rfl
  · rw [pcrc_of_not_inRange hl hsub] at h
    cases h

/-- The part of the slice database `pcrc` reads and writes, with a ghost record
of the `domOrigin` flag each block was appended with. -/
structure TerminiState where
  termini : Hash → Option (List Hash)
  hasHeader : Hash → Bool
  appendedWith : Hash → Option Bool

/-- The errors of this part of `Slice.Append`. -/
inductive TerminiError
  | knownBlock
  | pcrc (e : PcrcError)
  deriving DecidableEq, Repr

/-- The known-block check of `Slice.Append`, then `pcrc`, then the write of the
termini and the header in the same batch. -/
def appendTermini (nodeCtx : Ctx) (s : TerminiState) (header : Header) (domTerminus : Hash)
    (domOrigin : Bool) : Option (Except TerminiError TerminiState) :=
  if s.hasHeader header.hash = true ∧ (s.termini header.hash).isSome = true then
    some (.error .knownBlock)
  else
    match pcrc nodeCtx s.termini header domTerminus domOrigin with
    | none => none
    | some (.error e) => some (.error (.pcrc e))
    | some (.ok (_, newTermini)) =>
        some (.ok
          { termini := update s.termini header.hash (some newTermini)
            hasHeader := update s.hasHeader header.hash true
            appendedWith := update s.appendedWith header.hash (some domOrigin) })

namespace BlockTree

variable (t : BlockTree) (nodeCtx : Ctx)

/-- `Slice.init` on an empty chain: genesis is its own terminus everywhere. -/
def initialTermini : TerminiState where
  termini := update (fun _ => none) t.genesis.hash
    (some [t.genesis.hash, t.genesis.hash, t.genesis.hash, t.genesis.hash])
  hasHeader := update (fun _ => false) t.genesis.hash true
  appendedWith := fun _ => none

/-- The states reached by successful appends of blocks of the tree. -/
inductive TerminiReachable : TerminiState → Prop
  | init : TerminiReachable (t.initialTermini)
  | append {s s' : TerminiState} {x : t.Node} {domTerminus : Hash} {domOrigin : Bool} :
      TerminiReachable s → appendTermini nodeCtx s x.1 domTerminus domOrigin = some (.ok s') →
        TerminiReachable s'

/-- A block belongs to the chain of sub index `i`. -/
def hasSubIndex (i : ℕ) (y : t.Node) : Bool := y.1.location.subIndex nodeCtx == (i : Int)

/-- A block counts as dominant: every block on a prime node, and on the others
the blocks appended with `domOrigin`. -/
def isDomAppended (appendedWith : Hash → Option Bool) (y : t.Node) : Bool :=
  nodeCtx == .prime || appendedWith y.1.hash == some true

/-- The termini the invariant asks for: the nearest blocks of sub index 0, 1, 2
and the nearest dominant block. -/
def expectedTermini (appendedWith : Hash → Option Bool) (x : t.Node) : List Hash :=
  [(Ancestry.nearest t.up t.height (t.hasSubIndex nodeCtx 0) x).1.hash,
    (Ancestry.nearest t.up t.height (t.hasSubIndex nodeCtx 1) x).1.hash,
    (Ancestry.nearest t.up t.height (t.hasSubIndex nodeCtx 2) x).1.hash,
    (Ancestry.nearest t.up t.height (t.isDomAppended nodeCtx appendedWith) x).1.hash]

/-- The invariant of the termini table. -/
structure TerminiInv (s : TerminiState) : Prop where
  header_iff : ∀ h, s.hasHeader h = (s.termini h).isSome
  keys : ∀ h, (s.termini h).isSome → ∃ x : t.Node, x.1.hash = h
  closed : ∀ x p : t.Node, t.up x = some p → (s.termini x.1.hash).isSome →
    (s.termini p.1.hash).isSome
  marks : ∀ h, (s.appendedWith h).isSome → (s.termini h).isSome
  correct : ∀ x : t.Node, (s.termini x.1.hash).isSome →
    s.termini x.1.hash = some (t.expectedTermini nodeCtx s.appendedWith x)

variable {t nodeCtx}

theorem initialTermini_inv : t.TerminiInv nodeCtx t.initialTermini where
  header_iff := by
    intro h
    by_cases hh : h = t.genesis.hash <;> simp [initialTermini, hh]
  keys := by
    intro h hs
    by_cases hh : h = t.genesis.hash
    · exact ⟨t.root, hh.symm⟩
    · simp [initialTermini, hh] at hs
  closed := by
    intro x p hp hs
    have hx : x.1.hash = t.genesis.hash := by
      by_contra hne
      simp [initialTermini, hne] at hs
    rw [hash_eq_genesis_iff.mp hx, up_root] at hp
    cases hp
  marks := by
    intro h hs
    simp [initialTermini] at hs
  correct := by
    intro x hs
    have hx : x.1.hash = t.genesis.hash := by
      by_contra hne
      simp [initialTermini, hne] at hs
    have hroot : x = t.root := hash_eq_genesis_iff.mp hx
    have hnone : t.up t.root = none := up_eq_none_iff.mpr parentOf_genesis
    subst hroot
    simp only [initialTermini, update_apply, if_pos hx, expectedTermini,
      Ancestry.nearest_of_none graded hnone]
    rfl

/-- The termini of every stored block lie along a path of stored termini. -/
theorem TerminiInv.path_stored {s : TerminiState} (hinv : t.TerminiInv nodeCtx s) {x : t.Node}
    (hx : (s.termini x.1.hash).isSome) :
    ∀ y ∈ Ancestry.path t.up t.height x, (s.termini y.1.hash).isSome :=
  Ancestry.forall_mem_path_of_closed graded (fun y q hq hy => hinv.closed y q hq hy) hx

/-- Marking a block outside a path does not move the nearest dominant block. -/
theorem nearest_dom_of_fresh {s : TerminiState} (hinv : t.TerminiInv nodeCtx s) {x y : t.Node}
    (hfresh : s.termini x.1.hash = none) (hy : (s.termini y.1.hash).isSome) (b : Bool) :
    Ancestry.nearest t.up t.height
        (t.isDomAppended nodeCtx (update s.appendedWith x.1.hash (some b))) y =
      Ancestry.nearest t.up t.height (t.isDomAppended nodeCtx s.appendedWith) y := by
  apply Ancestry.nearest_congr graded
  intro z hz
  have hzs := hinv.path_stored hy z hz
  have hne : z.1.hash ≠ x.1.hash := by
    intro heq
    rw [heq, hfresh] at hzs
    cases hzs
  simp [isDomAppended, hne]

/-- A fresh block appended on its parent gets `nextTermini` of the parent's
expected termini, which are its own expected termini. -/
theorem expectedTermini_append {s : TerminiState} (hinv : t.TerminiInv nodeCtx s)
    {x p : t.Node} (hup : t.up x = some p) (hfresh : s.termini x.1.hash = none)
    (hp : (s.termini p.1.hash).isSome) (b : Bool) :
    t.expectedTermini nodeCtx (update s.appendedWith x.1.hash (some b)) x =
      match t.expectedTermini nodeCtx s.appendedWith p with
      | [a0, a1, a2, a3] => nextTermini nodeCtx x.1 b a0 a1 a2 a3
      | _ => [] := by
  have hsub : ∀ i : ℕ, (Ancestry.nearest t.up t.height (t.hasSubIndex nodeCtx i) x).1.hash =
      if x.1.location.subIndex nodeCtx = i then x.1.hash
      else (Ancestry.nearest t.up t.height (t.hasSubIndex nodeCtx i) p).1.hash := by
    intro i
    by_cases hi : x.1.location.subIndex nodeCtx = i
    · rw [if_pos hi, Ancestry.nearest_of_marked (by simp [hasSubIndex, hi])]
    · rw [if_neg hi, Ancestry.nearest_of_parent graded (by simp [hasSubIndex, hi]) hup]
  have hdom : (Ancestry.nearest t.up t.height
      (t.isDomAppended nodeCtx (update s.appendedWith x.1.hash (some b))) x).1.hash =
      if nodeCtx = .prime ∨ b = true then x.1.hash
      else (Ancestry.nearest t.up t.height (t.isDomAppended nodeCtx s.appendedWith) p).1.hash := by
    by_cases hm : nodeCtx = .prime ∨ b = true
    · rw [if_pos hm, Ancestry.nearest_of_marked]
      rcases hm with hm | hm <;> simp [isDomAppended, hm]
    · rw [if_neg hm, Ancestry.nearest_of_parent graded _ hup,
        nearest_dom_of_fresh hinv hfresh hp]
      simp only [not_or] at hm
      simp [isDomAppended, hm.1, hm.2]
  simp only [expectedTermini, nextTermini, hsub, hdom]

/-- A block whose parent has stored termini is not genesis: its parent is that block. -/
theorem TerminiInv.up_of_parent {s : TerminiState} (hinv : t.TerminiInv nodeCtx s) {x : t.Node}
    (hpt : (s.termini x.1.parentHash).isSome) :
    ∃ p : t.Node, t.up x = some p ∧ p.1.hash = x.1.parentHash := by
  obtain ⟨q, hq⟩ := hinv.keys _ hpt
  have hxroot : x ≠ t.root := by
    rintro rfl
    have hq2 := q.2
    have hnone : t.get t.root.1.parentHash = none := t.genesis_root
    rw [hq, hnone] at hq2
    cases hq2
  obtain ⟨p, hup, -⟩ := exists_up (x := x) (by
    have := (eq_root_iff (x := x)).not.mp hxroot
    omega)
  exact ⟨p, hup, hash_of_up hup⟩

/-- One successful append keeps the invariant. -/
theorem appendTermini_inv {s s' : TerminiState} (hinv : t.TerminiInv nodeCtx s) {x : t.Node}
    {domTerminus : Hash} {domOrigin : Bool}
    (h : appendTermini nodeCtx s x.1 domTerminus domOrigin = some (.ok s')) :
    t.TerminiInv nodeCtx s' := by
  unfold appendTermini at h
  split_ifs at h with hknown
  · cases h
  -- the block is new: its termini and header are absent
  have hfresh : s.termini x.1.hash = none := by
    rw [hinv.header_iff] at hknown
    simpa using hknown
  cases hp : pcrc nodeCtx s.termini x.1 domTerminus domOrigin with
  | none => simp [hp] at h
  | some r =>
    cases r with
    | error e => simp [hp] at h
    | ok res =>
      obtain ⟨d, nt⟩ := res
      simp only [hp, Option.some.injEq, Except.ok.injEq] at h
      subst h
      -- the parent's termini are stored, so the parent is a block of the tree
      have hlen : ((s.termini x.1.parentHash).getD []).length = 4 := by
        by_contra hne
        simp [pcrc, hne] at hp
      have hpt : (s.termini x.1.parentHash).isSome := by
        cases hpt : s.termini x.1.parentHash with
        | none => simp [hpt] at hlen
        | some l => rfl
      obtain ⟨p, hup, hq⟩ := hinv.up_of_parent hpt
      have hqs : (s.termini p.1.hash).isSome := by rw [hq]; exact hpt
      have hpterm := hinv.correct p hqs
      have hnt : nt = t.expectedTermini nodeCtx
          (update s.appendedWith x.1.hash (some domOrigin)) x := by
        rw [expectedTermini_append hinv hup hfresh hqs]
        rw [hq] at hpterm
        exact pcrc_ok_newTermini hpterm hp
      constructor
      · intro h'
        by_cases hh : h' = x.1.hash <;> simp [hh, hinv.header_iff]
      · intro h' hs
        by_cases hh : h' = x.1.hash
        · exact ⟨x, hh.symm⟩
        · exact hinv.keys h' (by simpa [update_apply, hh] using hs)
      · intro y r hr hy
        by_cases hy' : y.1.hash = x.1.hash
        · have hyx : y = x := Node.ext_hash hy'
          subst hyx
          rw [hup] at hr
          cases hr
          have hne : p.1.hash ≠ y.1.hash := by
            intro heq
            rw [heq, hfresh] at hqs
            cases hqs
          simp [hne, hqs]
        · have hys : (s.termini y.1.hash).isSome := by simpa [update_apply, hy'] using hy
          have hrs := hinv.closed y r hr hys
          by_cases hr' : r.1.hash = x.1.hash
          · simp [hr']
          · simpa [update_apply, hr'] using hrs
      · intro h' hs
        by_cases hh : h' = x.1.hash
        · simp [hh]
        · have := hinv.marks h' (by simpa [update_apply, hh] using hs)
          simpa [update_apply, hh] using this
      · intro y hy
        by_cases hy' : y.1.hash = x.1.hash
        · have hyx : y = x := Node.ext_hash hy'
          subst hyx
          simp [hnt]
        · have hys : (s.termini y.1.hash).isSome := by simpa [update_apply, hy'] using hy
          simp only [update_apply, hy', if_false]
          rw [hinv.correct y hys]
          simp only [expectedTermini, nearest_dom_of_fresh hinv hfresh hys]

theorem TerminiReachable.inv {s : TerminiState} (hs : t.TerminiReachable nodeCtx s) :
    t.TerminiInv nodeCtx s := by
  induction hs with
  | init => exact initialTermini_inv
  | append _ happ ih => exact appendTermini_inv ih happ

/-- Along every run of successful appends the stored termini of a block are
its nearest blocks of sub index 0, 1 and 2 and its nearest dominant block, with
genesis when there is none; and `pcrc` on a new block whose parent has termini
returns the termini of that block once appended, unless the append is dominant
and the parent's terminus is not the dominant terminus, which it rejects. -/
theorem termini_invariant :
    ∀ s, t.TerminiReachable nodeCtx s →
      (∀ (x : t.Node) (ts : List Hash), s.termini x.1.hash = some ts →
        ts = t.expectedTermini nodeCtx s.appendedWith x) ∧
      (∀ (x : t.Node) (ts : List Hash) (domTerminus : Hash) (domOrigin : Bool),
        s.termini x.1.parentHash = some ts → s.termini x.1.hash = none →
          SubIndexInRange nodeCtx x.1 →
          ∃ d, pcrc nodeCtx s.termini x.1 domTerminus domOrigin =
            if domOrigin = true ∧ ts.getD cTerminusIndex zeroHash ≠ domTerminus then
              some (.error .cyclicReference)
            else some (.ok (d, t.expectedTermini nodeCtx
              (update s.appendedWith x.1.hash (some domOrigin)) x))) := by
  intro s hs
  have hinv := hs.inv
  refine ⟨fun x ts hx => ?_, fun x ts domTerminus domOrigin hts hfresh hsub => ?_⟩
  · have := hinv.correct x (by simp [hx])
    rw [hx] at this
    exact Option.some.inj this
  · -- the parent's termini are the expected ones of a stored block: four hashes
    obtain ⟨p, hup, hp⟩ := hinv.up_of_parent (x := x) (by rw [hts]; rfl)
    have hps : (s.termini p.1.hash).isSome := by rw [hp, hts]; rfl
    have hpt := hinv.correct p hps
    rw [hp, hts] at hpt
    cases hpt
    obtain ⟨d, hd⟩ := pcrc_of_parent domTerminus domOrigin hts hsub
    refine ⟨d, ?_⟩
    rw [hd, expectedTermini_append hinv hup hfresh hps]
    rfl

/-- After a dominant append of block 2 on a region node, block 3 on top of it is
accepted under block 2 as dominant terminus and rejected under genesis. -/
theorem termini_invariant_dom_append :
    ∃ s, appendTermini .region forkTree.initialTermini ⟨2, 1, 1, [0, 0]⟩ 1 true = some (.ok s) ∧
      s.termini 2 = some [2, 1, 1, 2] ∧
      (∃ d, pcrc .region s.termini ⟨3, 2, 2, [0, 0]⟩ 2 true = some (.ok (d, [3, 1, 1, 3]))) ∧
      pcrc .region s.termini ⟨3, 2, 2, [0, 0]⟩ 1 true = some (.error .cyclicReference) := by
  obtain ⟨s, happ⟩ : ∃ s, appendTermini .region forkTree.initialTermini ⟨2, 1, 1, [0, 0]⟩ 1 true =
      some (.ok s) := ⟨_, rfl⟩
  have hs : forkTree.TerminiReachable .region s :=
    TerminiReachable.append (x := ⟨⟨2, 1, 1, [0, 0]⟩, by decide⟩) TerminiReachable.init happ
  refine ⟨s, happ, ?_⟩
  -- block 2 is new and its parent is genesis: the append stores [2, 1, 1, 2]
  have hpc : pcrc .region forkTree.initialTermini.termini ⟨2, 1, 1, [0, 0]⟩ 1 true =
      some (.ok (1, [2, 1, 1, 2])) := rfl
  simp only [appendTermini, hpc] at happ
  rw [if_neg (by decide)] at happ
  cases happ
  have hx := (termini_invariant _ hs).2 ⟨⟨3, 2, 2, [0, 0]⟩, by decide⟩ [2, 1, 1, 2]
  obtain ⟨d, hacc⟩ := hx 2 true rfl rfl (.inr ⟨0, by decide, rfl⟩)
  obtain ⟨_, hrej⟩ := hx 1 true rfl rfl (.inr ⟨0, by decide, rfl⟩)
  rw [if_neg (by decide)] at hacc
  rw [if_pos (by decide)] at hrej
  -- the expected termini of block 3: itself for sub index 0 and as dominant block
  generalize he : forkTree.expectedTermini _ _ _ = e at hacc
  have he3 : e = [3, 1, 1, 3] := by
    rw [← he]
    decide
  exact ⟨rfl, ⟨d, he3 ▸ hacc⟩, hrej⟩

end BlockTree

end GoQuai
