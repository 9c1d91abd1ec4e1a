import GoQuai.Common.Location
import Mathlib.Logic.Function.Basic

/-! # Live processing and historical state regeneration

`StateProcessor.Apply` processes a block with the unspent-ETX set of its
parent, updated with the block's inbound ETXs, and stores the set left after
the block under the block's hash. `StateAtBlock` rebuilds the state of a block
whose trie is gone: it walks back to an ancestor whose state is on disk and
runs `Process` on every canonical block from there up to the target, all with
the one set stored under the target, which `Process` keeps mutating.

The state is a parameter `σ` and `applyTransaction` a function on it: only the
set's plumbing is modelled here.
-/

namespace GoQuai.StateProcessor

/-- `params.EtxExpirationAge`. -/
def etxExpirationAge : ℕ := 100

/-- A transaction: its hash and whether it is of `ExternalTxType`. -/
structure Tx where
  hash : Hash
  external : Bool
  deriving DecidableEq, Repr

/-- The fields of a block that processing reads. -/
structure Block where
  hash : Hash
  parentHash : Hash
  number : ℕ
  txs : List Tx
  deriving DecidableEq, Repr

/-- `types.EtxSet`: an ETX hash to the height it became available and the ETX. -/
abbrev EtxSet := Hash → Option (ℕ × Tx)

/-- `EtxSet.Update`: add the inbound ETXs at the current height, then drop the
expired ones. -/
def update (set : EtxSet) (newInboundEtxs : List Tx) (currentHeight : ℕ) : EtxSet :=
  let added := newInboundEtxs.foldl
    (fun (s : EtxSet) etx => Function.update s etx.hash (some (currentHeight, etx))) set
  fun h =>
    match added h with
    | some (availableAtBlock, etx) =>
        if currentHeight > availableAtBlock + etxExpirationAge then none else some (availableAtBlock, etx)
    | none => none

variable {σ : Type} (applyTransaction : σ → Tx → Except String σ)

/-- The transaction loop of `StateProcessor.Process`: an ETX must be in the set,
is applied as stored there, and is then deleted from it. -/
def processTxs : List Tx → σ → EtxSet → Except String (σ × EtxSet)
  | [], s, set => .ok (s, set)
  | tx :: txs, s, set =>
      if tx.external then
        match set tx.hash with
        | none => .error "invalid external transaction: etx not found in unspent etx set"
        | some (_, etx) =>
            match applyTransaction s etx with
            | .error e => .error e
            | .ok s => processTxs txs s (Function.update set tx.hash none)
      else
        match applyTransaction s tx with
        | .error e => .error e
        | .ok s => processTxs txs s set

/-- `StateProcessor.Process`, on the state of the parent in the live cache. -/
def process (stateCache : Hash → Option σ) (block : Block) (etxSet : EtxSet) :
    Except String (σ × EtxSet) :=
  match stateCache block.parentHash with
  | none => .error "parent block is nil for the block given to process"
  | some s => processTxs applyTransaction block.txs s etxSet

/-- What `Apply` reads and writes: the ETX sets by block hash, and the states
of the live cache. -/
structure LiveDb where
  etxSets : Hash → Option EtxSet
  states : Hash → Option σ

/-- `StateProcessor.Apply`, with the new state and set stored under the block. -/
def apply (db : LiveDb (σ := σ)) (block : Block) (newInboundEtxs : List Tx) :
    Except String (LiveDb (σ := σ)) :=
  match db.etxSets block.parentHash with
  | none => .error "failed to load etx set"
  | some etxSet =>
      match process applyTransaction db.states block (update etxSet newInboundEtxs block.number) with
      | .error e => .error e
      | .ok (s, etxSet) =>
          .ok ⟨Function.update db.etxSets block.hash (some etxSet),
            Function.update db.states block.hash (some s)⟩

/-- A run of `Apply` over blocks, each with its inbound ETXs. -/
def applyAll : LiveDb (σ := σ) → List (Block × List Tx) → Except String (LiveDb (σ := σ))
  | db, [] => .ok db
  | db, (block, inbound) :: rest =>
      match apply applyTransaction db block inbound with
      | .error e => .error e
      | .ok db => applyAll db rest

variable (db : LiveDb (σ := σ)) (getBlock : Hash → ℕ → Option Block)
  (getBlockByNumber : ℕ → Option Block) (stateNew : Hash → Option σ)

/-- The walk back of `StateAtBlock` to an ancestor whose state opens, at most
`reexec` blocks deep. -/
def findBase : ℕ → Block → Except String (Block × σ)
  | 0, _ => .error "required historical state unavailable"
  | i + 1, current =>
      if current.number = 0 then .error "genesis state is missing"
      else
        match getBlock current.parentHash (current.number - 1) with
        | none => .error "missing block"
        | some parent =>
            match stateNew parent.hash with
            | some s => .ok (parent, s)
            | none => findBase i parent

/-- The regeneration loop of `StateAtBlock` over the next `fuel` canonical
blocks: `Process` runs with the shared set and its state is dropped, and the
state committed is the one opened at the base. -/
def regenerate : ℕ → ℕ → σ → EtxSet → Except String σ
  | 0, _, statedb, _ => .ok statedb
  | fuel + 1, number, statedb, etxSet =>
      match getBlockByNumber (number + 1) with
      | none => .error "block not found"
      | some current =>
          match process applyTransaction db.states current etxSet with
          | .error e => .error ("processing block failed: " ++ e)
          | .ok (_, etxSet) => regenerate fuel (number + 1) statedb etxSet

/-- `StateProcessor.StateAtBlock` without a base state and without the live
check: the set is the one stored under the target block, empty when missing. -/
def stateAtBlock (block : Block) (reexec : ℕ) : Except String σ :=
  let etxSet := (db.etxSets block.hash).getD fun _ => none
  match stateNew block.hash with
  | some s => .ok s
  | none =>
      match findBase getBlock stateNew reexec block with
      | .error e => .error e
      | .ok (current, statedb) =>
          regenerate applyTransaction db getBlockByNumber (block.number - current.number)
            current.number statedb etxSet

variable {applyTransaction db getBlock getBlockByNumber stateNew}

/-- Whatever the blocks do, regeneration returns the state it started from. -/
theorem regenerate_eq_base {fuel number : ℕ} {statedb s : σ} {etxSet : EtxSet}
    (h : regenerate applyTransaction db getBlockByNumber fuel number statedb etxSet = .ok s) :
    s = statedb := by
  induction fuel generalizing number etxSet with
  | zero =>
      cases h
      rfl
  | succ fuel ih =>
      simp only [regenerate] at h
      split at h
      · cases h
      split at h
      · cases h
      exact ih h

/-- Each transaction adds one to a counter. -/
def countTx (s : ℕ) (_ : Tx) : Except String ℕ := .ok (s + 1)

def genesisBlock : Block := ⟨1, 0, 0, []⟩

/-- Block 1 receives the ETX `9`; block 2 spends it. -/
def receivingBlock : Block := ⟨2, 1, 1, []⟩

def spendingBlock : Block := ⟨3, 2, 2, [⟨9, true⟩]⟩

def canonicalBlock (n : ℕ) : Option Block := [genesisBlock, receivingBlock, spendingBlock][n]?

def canonicalGetBlock (hash : Hash) (n : ℕ) : Option Block :=
  (canonicalBlock n).filter fun b => b.hash = hash

/-- Only the genesis set and state are stored. -/
def genesisDb : LiveDb (σ := ℕ) :=
  ⟨fun h => if h = 1 then some fun _ => none else none, fun h => if h = 1 then some 0 else none⟩

/-- Only the genesis state is on disk. -/
def genesisOnDisk (h : Hash) : Option ℕ := if h = 1 then some 0 else none

theorem state_at_block_etx_missing :
    ∃ db, applyAll countTx genesisDb [(receivingBlock, [⟨9, true⟩]), (spendingBlock, [])] = .ok db ∧
      db.states spendingBlock.hash = some 1 ∧
      stateAtBlock countTx db canonicalGetBlock canonicalBlock genesisOnDisk spendingBlock 2 =
        .error "processing block failed: invalid external transaction: etx not found in unspent etx set" :=
  ⟨_, rfl, rfl, rfl⟩

/-- Block 1 of `internalChain` holds one internal transaction. -/
def internalBlock : Block := ⟨2, 1, 1, [⟨5, false⟩]⟩

def internalChain (n : ℕ) : Option Block := [genesisBlock, internalBlock][n]?

def internalGetBlock (hash : Hash) (n : ℕ) : Option Block :=
  (internalChain n).filter fun b => b.hash = hash

end GoQuai.StateProcessor
