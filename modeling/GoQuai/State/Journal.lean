import GoQuai.State.AccessList
import GoQuai.Lib.Journal

/-! # State journal entries

The entries of `core/state/journal.go`, each with the revert it performs and
the address it dirties. `World` is what the entries read and write: per
address the object `getDeletedStateObject` returns (the live one, else the one
the database would load), and the snapshot destructs, refund counter, logs,
preimages and access list.

An object's storage is its `GetState` view: the dirty, pending and origin
layers and the trie behind them are one function, since every journaled write
and every `GetState` read goes through that view. The `dirtyCode` flag and
the `stateObjectsDirty` set, read only by `Finalise` and `Commit`, are left
out, and `snapDestructs` is keyed by the address rather than by its hash.
-/

namespace GoQuai.State

open Function GoQuai.Common

/-- `common.InternalAddress`: twenty bytes. -/
abbrev InternalAddress := AddressBytes

/-- The fields of `stateObject` that the journaled setters read and write. -/
structure StateObject where
  nonce : ℕ
  balance : ℤ
  codeHash : Hash
  code : List UInt8
  storage : Hash → Hash
  suicided : Bool
  deleted : Bool

/-- `types.Log`: the fields `AddLog` sets and the caller's payload. -/
structure Log where
  address : AddressBytes
  topics : List Hash
  data : List UInt8
  txHash : Hash
  txIndex : ℕ
  index : ℕ

/-- The part of `StateDB` the journal reverts. -/
@[ext] structure World where
  stateObjects : InternalAddress → Option StateObject
  snapActive : Bool
  snapDestructs : InternalAddress → Bool
  refund : ℕ
  thash : Hash
  txIndex : ℕ
  logs : Hash → List Log
  logSize : ℕ
  preimages : Hash → Option (List UInt8)
  accessList : AccessList

namespace World

/-- `getStateObject`: a deleted object reads as missing. -/
def getStateObject (w : World) (addr : InternalAddress) : Option StateObject :=
  match w.stateObjects addr with
  | some obj => if obj.deleted then none else some obj
  | none => none

/-- Write back an object changed in place. -/
def setStateObject (w : World) (addr : InternalAddress) (obj : StateObject) : World :=
  { w with stateObjects := update w.stateObjects addr (some obj) }

/-- Change the live object at `addr`; a missing one is a `nil` dereference. -/
def modifyObject (w : World) (addr : InternalAddress) (f : StateObject → StateObject) :
    Option World :=
  (w.getStateObject addr).map fun obj => w.setStateObject addr (f obj)

theorem getStateObject_setStateObject {w : World} {addr : InternalAddress} {obj : StateObject}
    (hobj : obj.deleted = false) : (w.setStateObject addr obj).getStateObject addr = some obj := by
  simp [getStateObject, setStateObject, hobj]

/-- Writing back the object that was read leaves the world as it was. -/
theorem setStateObject_of_get {w : World} {addr : InternalAddress} {obj : StateObject}
    (h : w.getStateObject addr = some obj) : w.setStateObject addr obj = w := by
  unfold getStateObject at h
  rcases hs : w.stateObjects addr with _ | o
  · simp [hs] at h
  · simp only [hs] at h
    split_ifs at h
    cases h
    simp only [setStateObject, ← hs, update_eq_self]

theorem setStateObject_setStateObject (w : World) (addr : InternalAddress) (o o' : StateObject) :
    (w.setStateObject addr o).setStateObject addr o' = w.setStateObject addr o' := by
  simp [setStateObject]

end World

/-- `journalEntry`. -/
inductive Entry
  | createObjectChange (account : InternalAddress)
  | resetObjectChange (account : InternalAddress) (prev : StateObject) (prevdestruct : Bool)
  | suicideChange (account : InternalAddress) (prev : Bool) (prevbalance : ℤ)
  | balanceChange (account : InternalAddress) (prev : ℤ)
  | nonceChange (account : InternalAddress) (prev : ℕ)
  | storageChange (account : InternalAddress) (key prevalue : Hash)
  | codeChange (account : InternalAddress) (prevcode : List UInt8) (prevhash : Hash)
  | refundChange (prev : ℕ)
  | addLogChange (txhash : Hash)
  | addPreimageChange (hash : Hash)
  | touchChange (account : InternalAddress)
  | accessListAddAccountChange (address : AddressBytes)
  | accessListAddSlotChange (address : AddressBytes) (slot : Hash)

namespace Entry

/-- `dirtied`: the address an entry counts against, if any. -/
def dirtied : Entry → Option InternalAddress
  | createObjectChange account => some account
  | suicideChange account _ _ => some account
  | balanceChange account _ => some account
  | nonceChange account _ => some account
  | storageChange account _ _ => some account
  | codeChange account _ _ => some account
  | touchChange account => some account
  | _ => none

/-- `revert`. -/
def revert : Entry → World → Option World
  | createObjectChange account, w =>
      some { w with stateObjects := update w.stateObjects account none }
  | resetObjectChange account prev prevdestruct, w =>
      some { w with
        stateObjects := update w.stateObjects account (some prev)
        snapDestructs :=
          if !prevdestruct && w.snapActive then update w.snapDestructs account false
          else w.snapDestructs }
  | suicideChange account prev prevbalance, w =>
      match w.getStateObject account with
      | some obj => some (w.setStateObject account { obj with suicided := prev, balance := prevbalance })
      | none => some w
  | balanceChange account prev, w => w.modifyObject account fun obj => { obj with balance := prev }
  | nonceChange account prev, w => w.modifyObject account fun obj => { obj with nonce := prev }
  | storageChange account key prevalue, w =>
      w.modifyObject account fun obj => { obj with storage := update obj.storage key prevalue }
  | codeChange account prevcode prevhash, w =>
      w.modifyObject account fun obj => { obj with code := prevcode, codeHash := prevhash }
  | refundChange prev, w => some { w with refund := prev }
  | addLogChange txhash, w =>
      -- one log is deleted with its key; none left is a slice out of range
      let logs := w.logs txhash
      if logs.length = 1 then some { w with logs := update w.logs txhash [], logSize := w.logSize - 1 }
      else if logs.length = 0 then none
      else
        some { w with
          logs := update w.logs txhash (logs.take (logs.length - 1))
          logSize := w.logSize - 1 }
  | addPreimageChange hash, w => some { w with preimages := update w.preimages hash none }
  | touchChange _, w => some w
  | accessListAddAccountChange address, w =>
      some { w with accessList := w.accessList.deleteAddress address }
  | accessListAddSlotChange address slot, w =>
      (w.accessList.deleteSlot address slot).map fun al => { w with accessList := al }

-- Generate the equation lemmas of these definitions once, here, rather than in
-- each of the proofs below that unfold them while they are elaborated in parallel.
section
attribute [local simp] revert
end

end Entry

end GoQuai.State
