import GoQuai.Lib.Ancestry
import GoQuai.Common.Location

/-! # The block tree of a node

Headers are stored by hash, as `rawdb.WriteHeader` keys them, and form a tree
rooted at the genesis block: every stored header other than genesis has its
parent stored one number lower, genesis has no stored parent, and no header is
stored under the empty hash. The stored headers, with `GetHeader` on the parent
hash as parent map, are a graded forest, so the walks of `Ancestry` apply.
-/

namespace GoQuai

/-- The fields of `types.Header` that a node's own chain links on:
`Hash()`, `ParentHash()`, `NumberU64()` and `Location()`. -/
structure Header where
  hash : Hash
  parentHash : Hash
  number : ℕ
  location : Location
  deriving DecidableEq, Repr

/-- `NumberU64() - 1` in `uint64` arithmetic, which wraps at zero. -/
def predU64 (n : ℕ) : ℕ := if n = 0 then 2 ^ 64 - 1 else n - 1

/-- The headers in the database, keyed by hash and rooted at genesis. -/
structure BlockTree where
  get : Hash → Option Header
  genesis : Header
  get_genesis : get genesis.hash = some genesis
  genesis_number : genesis.number = 0
  genesis_root : get genesis.parentHash = none
  zero_absent : get zeroHash = none
  hash_of_get : ∀ {k h}, get k = some h → h.hash = k
  parent_of_get : ∀ {k h}, get k = some h → h ≠ genesis →
    ∃ p, get h.parentHash = some p ∧ p.number + 1 = h.number

namespace BlockTree

variable (t : BlockTree)

/-- `HeaderChain.GetHeader(hash, number)`: the stored header with that hash,
if it sits at that number. -/
def getHeader (hash : Hash) (number : ℕ) : Option Header :=
  match t.get hash with
  | some h => if h.number = number then some h else none
  | none => none

/-- `GetHeader(h.ParentHash(), h.NumberU64()-1)`, the step every walk takes. -/
def parentOf (h : Header) : Option Header :=
  t.getHeader h.parentHash (predU64 h.number)

/-- The stored blocks. -/
abbrev Node : Type := {h : Header // t.get h.hash = some h}

variable {t}

theorem get_of_getHeader {hash : Hash} {n : ℕ} {p : Header} (h : t.getHeader hash n = some p) :
    t.get hash = some p ∧ p.number = n := by
  unfold getHeader at h
  cases hg : t.get hash with
  | none => simp [hg] at h
  | some q =>
      simp only [hg] at h
      split at h
      · cases h
        exact ⟨rfl, by assumption⟩
      · cases h

theorem stored_of_parentOf {h p : Header} (hp : t.parentOf h = some p) : t.get p.hash = some p := by
  obtain ⟨hg, -⟩ := get_of_getHeader hp
  rw [t.hash_of_get hg]
  exact hg

theorem number_eq_zero_iff {h : Header} (hs : t.get h.hash = some h) :
    h.number = 0 ↔ h = t.genesis := by
  constructor
  · intro h0
    by_contra hne
    obtain ⟨p, -, hp⟩ := t.parent_of_get hs hne
    omega
  · rintro rfl
    exact t.genesis_number

theorem parentOf_genesis : t.parentOf t.genesis = none := by
  simp [parentOf, getHeader, t.genesis_root]

/-- A stored block other than genesis finds its parent one number lower. -/
theorem parentOf_of_ne_genesis {h : Header} (hs : t.get h.hash = some h) (hne : h ≠ t.genesis) :
    ∃ p, t.parentOf h = some p ∧ t.get h.parentHash = some p ∧ p.number + 1 = h.number := by
  obtain ⟨p, hp, hnum⟩ := t.parent_of_get hs hne
  refine ⟨p, ?_, hp, hnum⟩
  have hpred : predU64 h.number = p.number := by
    unfold predU64
    split <;> omega
  simp [parentOf, getHeader, hp, hpred]

theorem number_parentOf {h p : Header} (hs : t.get h.hash = some h) (hp : t.parentOf h = some p) :
    p.number + 1 = h.number := by
  by_cases hg : h = t.genesis
  · subst hg
    simp [parentOf_genesis] at hp
  · obtain ⟨q, hq, -, hnum⟩ := parentOf_of_ne_genesis hs hg
    rw [hp] at hq
    cases hq
    exact hnum

variable (t)

/-- The parent map on stored blocks. -/
def up (x : t.Node) : Option t.Node :=
  (t.parentOf x.1).pmap (p := fun p => t.parentOf x.1 = some p)
    (fun p hp => ⟨p, stored_of_parentOf hp⟩) (fun _ h => h)

/-- The genesis block as a stored block. -/
def root : t.Node := ⟨t.genesis, t.get_genesis⟩

/-- `NumberU64()` of a stored block. -/
def height (x : t.Node) : ℕ := x.1.number

/-- The ancestor-or-self of a stored block at a number. -/
def ancestor (x : t.Node) (k : ℕ) : t.Node := Ancestry.ancestorAt t.up t.height x k

variable {t}

theorem up_eq_some_iff {x y : t.Node} : t.up x = some y ↔ t.parentOf x.1 = some y.1 := by
  unfold up
  rw [Option.pmap_eq_some_iff]
  constructor
  · rintro ⟨p, hp, hx, rfl⟩
    exact hx
  · intro h
    exact ⟨y.1, h, h, rfl⟩

theorem up_eq_none_iff {x : t.Node} : t.up x = none ↔ t.parentOf x.1 = none := by
  unfold up
  exact Option.pmap_eq_none_iff

theorem hash_of_up {x p : t.Node} (h : t.up x = some p) : p.1.hash = x.1.parentHash := by
  obtain ⟨hg, -⟩ := get_of_getHeader (up_eq_some_iff.mp h)
  exact t.hash_of_get hg

/-- Stored blocks are determined by their hash. -/
theorem Node.ext_hash {x y : t.Node} (h : x.1.hash = y.1.hash) : x = y := by
  apply Subtype.ext
  have hx := x.2
  rw [h, y.2] at hx
  exact (Option.some.inj hx).symm

theorem graded : Ancestry.Graded t.up t.height where
  height_parent := by
    intro x p hp
    exact number_parentOf x.2 (up_eq_some_iff.mp hp)
  exists_parent := by
    intro x hx
    have hne : x.1 ≠ t.genesis := fun h => by
      have := (number_eq_zero_iff x.2).mpr h
      simp [height] at hx
      omega
    obtain ⟨p, hp, -, -⟩ := parentOf_of_ne_genesis x.2 hne
    exact ⟨⟨p, stored_of_parentOf hp⟩, up_eq_some_iff.mpr hp⟩

theorem height_ancestor {x : t.Node} {k : ℕ} (hk : k ≤ x.1.number) :
    (t.ancestor x k).1.number = k :=
  Ancestry.height_ancestorAt graded hk

@[simp] theorem ancestor_self (x : t.Node) : t.ancestor x x.1.number = x :=
  Ancestry.ancestorAt_height x

theorem ancestor_of_up {x p : t.Node} (h : t.up x = some p) {k : ℕ} (hk : k < x.1.number) :
    t.ancestor x k = t.ancestor p k :=
  Ancestry.ancestorAt_of_parent graded h hk

theorem ancestor_eq_of_le {x y : t.Node} {i j : ℕ} (hij : i ≤ j) (hx : j ≤ x.1.number)
    (hy : j ≤ y.1.number) (h : t.ancestor x j = t.ancestor y j) :
    t.ancestor x i = t.ancestor y i :=
  Ancestry.ancestorAt_eq_of_le graded hij hx hy h

/-- Every stored block descends from genesis. -/
theorem ancestor_zero (x : t.Node) : t.ancestor x 0 = t.root := by
  apply Subtype.ext
  have h0 := height_ancestor (t := t) (x := x) (Nat.zero_le _)
  exact (number_eq_zero_iff (t.ancestor x 0).2).mp h0

theorem root_number : t.root.1.number = 0 := t.genesis_number

theorem up_root : t.up t.root = none := up_eq_none_iff.mpr parentOf_genesis

theorem eq_root_iff {x : t.Node} : x = t.root ↔ x.1.number = 0 := by
  rw [number_eq_zero_iff x.2]
  constructor
  · rintro rfl
    rfl
  · intro h
    exact Subtype.ext h

theorem hash_eq_genesis_iff {x : t.Node} : x.1.hash = t.genesis.hash ↔ x = t.root := by
  constructor
  · intro h
    exact Node.ext_hash h
  · rintro rfl
    rfl

theorem exists_up {x : t.Node} (hx : 0 < x.1.number) :
    ∃ p, t.up x = some p ∧ p.1.number + 1 = x.1.number := by
  obtain ⟨p, hp⟩ := graded.exists_parent hx
  exact ⟨p, hp, graded.height_parent hp⟩

/-! ## Trees given by a list of headers -/

/-- The first header of the list with a given hash. -/
def lookup (headers : List Header) (k : Hash) : Option Header :=
  headers.find? (fun h => h.hash == k)

/-- The decidable conditions under which a list of headers is a block tree. -/
def WellFormed (genesis : Header) (headers : List Header) : Bool :=
  lookup headers genesis.hash == some genesis && genesis.number == 0 &&
    (lookup headers genesis.parentHash).isNone && (lookup headers zeroHash).isNone &&
    headers.all fun h =>
      h == genesis ||
        match lookup headers h.parentHash with
        | some p => p.number + 1 == h.number
        | none => false

theorem lookup_hash {headers : List Header} {k : Hash} {h : Header}
    (hl : lookup headers k = some h) : h.hash = k := by
  have := List.find?_some hl
  simpa using this

/-- The block tree of a list of headers that passes `WellFormed`. -/
def ofList (genesis : Header) (headers : List Header)
    (hw : WellFormed genesis headers = true) : BlockTree where
  get := lookup headers
  genesis := genesis
  get_genesis := by
    simp only [WellFormed, Bool.and_eq_true, beq_iff_eq] at hw
    exact hw.1.1.1.1
  genesis_number := by
    simp only [WellFormed, Bool.and_eq_true, beq_iff_eq] at hw
    exact hw.1.1.1.2
  genesis_root := by
    simp only [WellFormed, Bool.and_eq_true, Option.isNone_iff_eq_none] at hw
    exact hw.1.1.2
  zero_absent := by
    simp only [WellFormed, Bool.and_eq_true, Option.isNone_iff_eq_none] at hw
    exact hw.1.2
  hash_of_get := lookup_hash
  parent_of_get := by
    intro k h hl hne
    simp only [WellFormed, Bool.and_eq_true, List.all_eq_true] at hw
    have hmem := List.mem_of_find?_eq_some hl
    have hh := hw.2 h hmem
    simp only [Bool.or_eq_true, beq_iff_eq, hne, false_or] at hh
    cases hp : lookup headers h.parentHash with
    | none => simp [hp] at hh
    | some p =>
        simp only [hp, beq_iff_eq] at hh
        exact ⟨p, rfl, hh⟩

/-- A genesis block with two branches: `a → b` and `c`. -/
def forkTree : BlockTree :=
  ofList ⟨1, 0, 0, []⟩
    [⟨1, 0, 0, []⟩, ⟨2, 1, 1, [0, 0]⟩, ⟨3, 2, 2, [0, 0]⟩, ⟨4, 1, 1, [0, 1]⟩] (by decide)

end BlockTree

end GoQuai
