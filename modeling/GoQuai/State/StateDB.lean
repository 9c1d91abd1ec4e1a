import GoQuai.State.Journal

/-! # Journaled StateDB setters, Snapshot and RevertToSnapshot

The setters of `core/state/statedb.go` and `state_object.go` that the journal
records, as one step function on `World`. A step returns the world after it,
the entries it appended, in order, and the addresses it marked dirty by hand
(`journal.dirty`, which `touch` calls for the RIPEMD precompile's address).
`Snapshot` and `RevertToSnapshot` are the revisions of `GoQuai.Undo` over the
journal of these entries.

The entries of every setter undo it, so reverting to a snapshot restores the
world. The mark made by hand is not taken back: a reverted touch of the RIPEMD
address leaves its dirty count one higher.

A panic (`SubRefund` below zero, a `nil` object) is `none`. The database
error that `createObject` records for an address out of scope is not
modelled; no setter reads it and no revert touches it.
-/

namespace GoQuai.State

open Function GoQuai.Common GoQuai.Undo

/-- `ripemd`: the address `0x00…03`. -/
def ripemd : InternalAddress := setBytes [3]

section Setters

variable (keccak : List UInt8 → Hash)

/-- `emptyCodeHash`, the hash of no code. -/
def emptyCodeHash : Hash := keccak []

/-- `newObject` for an empty account. -/
def newObject : StateObject := ⟨0, 0, emptyCodeHash keccak, [], fun _ => 0, false, false⟩

namespace StateObject

/-- `stateObject.empty`. -/
def empty (obj : StateObject) : Bool :=
  obj.nonce = 0 ∧ obj.balance = 0 ∧ obj.codeHash = emptyCodeHash keccak

/-- What an object's setter did: the object after it, the entries it appended
and the addresses it marked by hand. -/
abbrev Change := StateObject × List Entry × List InternalAddress

/-- `touch`. -/
def touch (obj : StateObject) (addr : InternalAddress) : Change :=
  (obj, [.touchChange addr], if addr.bytes = ripemd.bytes then [addr] else [])

/-- `stateObject.SetBalance`. -/
def setBalance (obj : StateObject) (addr : InternalAddress) (amount : ℤ) : Change :=
  ({ obj with balance := amount }, [.balanceChange addr obj.balance], [])

/-- `stateObject.AddBalance`: adding zero only touches an empty object. -/
def addBalance (obj : StateObject) (addr : InternalAddress) (amount : ℤ) : Change :=
  if amount = 0 then
    if obj.empty keccak then obj.touch addr else (obj, [], [])
  else obj.setBalance addr (obj.balance + amount)

/-- `stateObject.SubBalance`. -/
def subBalance (obj : StateObject) (addr : InternalAddress) (amount : ℤ) : Change :=
  if amount = 0 then (obj, [], []) else obj.setBalance addr (obj.balance - amount)

/-- `stateObject.SetNonce`. -/
def setNonce (obj : StateObject) (addr : InternalAddress) (nonce : ℕ) : Change :=
  ({ obj with nonce := nonce }, [.nonceChange addr obj.nonce], [])

/-- `stateObject.SetCode`. -/
def setCode (obj : StateObject) (addr : InternalAddress) (codeHash : Hash) (code : List UInt8) :
    Change :=
  ({ obj with code := code, codeHash := codeHash }, [.codeChange addr obj.code obj.codeHash], [])

/-- `stateObject.SetState`: writing the value already there is not journaled. -/
def setState (obj : StateObject) (addr : InternalAddress) (key value : Hash) : Change :=
  if obj.storage key = value then (obj, [], [])
  else ({ obj with storage := update obj.storage key value },
    [.storageChange addr key (obj.storage key)], [])

end StateObject

variable (nodeLocation : Location)

/-- `createObject`: out of scope nothing is created (`none` inside);
otherwise the new object and the live object it replaces. -/
def createObject (w : World) (addr : InternalAddress) :
    Option (World × List Entry × Option (StateObject × Option StateObject)) := do
  let inScope ← isInChainScope nodeLocation addr.bytes
  if !inScope then return (w, [], none)
  let prev := w.stateObjects addr
  let prevdestruct := w.snapActive && prev.isSome && w.snapDestructs addr
  let snapDestructs :=
    if w.snapActive && prev.isSome && !w.snapDestructs addr then update w.snapDestructs addr true
    else w.snapDestructs
  let entry := match prev with
    | none => Entry.createObjectChange addr
    | some p => Entry.resetObjectChange addr p prevdestruct
  return ({ w with
      snapDestructs := snapDestructs
      stateObjects := update w.stateObjects addr (some (newObject keccak)) },
    [entry], some (newObject keccak, prev.filter fun p => !p.deleted))

/-- `GetOrNewStateObject`. -/
def getOrNewStateObject (w : World) (addr : InternalAddress) :
    Option (World × List Entry × Option StateObject) :=
  match w.getStateObject addr with
  | some obj => some (w, [], some obj)
  | none => (createObject keccak nodeLocation w addr).map fun r => (r.1, r.2.1, r.2.2.map Prod.fst)

/-- A `StateDB` setter: the object's setter on the object at `addr`, created
if missing; out of scope nothing happens. -/
def updateObject (w : World) (addr : InternalAddress) (f : StateObject → StateObject.Change) :
    Option (World × List Entry × List InternalAddress) := do
  let (w, es, obj) ← getOrNewStateObject keccak nodeLocation w addr
  match obj with
  | none => some (w, es, [])
  | some obj =>
      let (obj, es', xs) := f obj
      some (w.setStateObject addr obj, es ++ es', xs)

end Setters

/-- The journaled setters of `StateDB`. -/
inductive Op
  | createAccount (addr : InternalAddress)
  | addBalance (addr : InternalAddress) (amount : ℤ)
  | subBalance (addr : InternalAddress) (amount : ℤ)
  | setBalance (addr : InternalAddress) (amount : ℤ)
  | setNonce (addr : InternalAddress) (nonce : ℕ)
  | setCode (addr : InternalAddress) (code : List UInt8)
  | setState (addr : InternalAddress) (key value : Hash)
  | suicide (addr : InternalAddress)
  | addRefund (gas : ℕ)
  | subRefund (gas : ℕ)
  | addLog (log : Log)
  | addPreimage (hash : Hash) (preimage : List UInt8)
  | addAddressToAccessList (addr : Address)
  | addSlotToAccessList (addr : Address) (slot : Hash)

variable (keccak : List UInt8 → Hash) (nodeLocation : Location)

/-- One setter: the world after it, its entries in order, and its marks by
hand. -/
def step : Op → World → Option (World × List Entry × List InternalAddress)
  | .createAccount addr, w => do
      -- the balance of a live account it replaces is carried over, unjournaled
      let (w, es, r) ← createObject keccak nodeLocation w addr
      match r with
      | some (newObj, some prev) =>
          some (w.setStateObject addr { newObj with balance := prev.balance }, es, [])
      | _ => some (w, es, [])
  | .addBalance addr amount, w =>
      updateObject keccak nodeLocation w addr fun obj => obj.addBalance keccak addr amount
  | .subBalance addr amount, w =>
      updateObject keccak nodeLocation w addr fun obj => obj.subBalance addr amount
  | .setBalance addr amount, w =>
      updateObject keccak nodeLocation w addr fun obj => obj.setBalance addr amount
  | .setNonce addr nonce, w =>
      updateObject keccak nodeLocation w addr fun obj => obj.setNonce addr nonce
  | .setCode addr code, w =>
      updateObject keccak nodeLocation w addr fun obj => obj.setCode addr (keccak code) code
  | .setState addr key value, w =>
      updateObject keccak nodeLocation w addr fun obj => obj.setState addr key value
  | .suicide addr, w =>
      match w.getStateObject addr with
      | none => some (w, [], [])
      | some obj =>
          some (w.setStateObject addr { obj with suicided := true, balance := 0 },
            [.suicideChange addr obj.suicided obj.balance], [])
  | .addRefund gas, w =>
      some ({ w with refund := (w.refund + gas) % 2 ^ 64 }, [.refundChange w.refund], [])
  | .subRefund gas, w =>
      if gas > w.refund then none
      else some ({ w with refund := w.refund - gas }, [.refundChange w.refund], [])
  | .addLog log, w =>
      some ({ w with
          logs := update w.logs w.thash
            (w.logs w.thash ++ [{ log with txHash := w.thash, txIndex := w.txIndex, index := w.logSize }])
          logSize := w.logSize + 1 },
        [.addLogChange w.thash], [])
  | .addPreimage hash preimage, w =>
      if (w.preimages hash).isSome then some (w, [], [])
      else some ({ w with preimages := update w.preimages hash (some preimage) },
        [.addPreimageChange hash], [])
  | .addAddressToAccessList addr, w =>
      let (al, added) := w.accessList.addAddress addr.bytes20
      some ({ w with accessList := al },
        if added then [.accessListAddAccountChange addr.bytes20] else [], [])
  | .addSlotToAccessList addr slot, w => do
      let (al, addrMod, slotMod) ← w.accessList.addSlot addr.bytes20 slot
      some ({ w with accessList := al },
        (if addrMod then [.accessListAddAccountChange addr.bytes20] else []) ++
          (if slotMod then [.accessListAddSlotChange addr.bytes20 slot] else []), [])

-- Generate the equation lemmas of these definitions once, here, rather than in
-- each of the proofs below that unfold them while they are elaborated in parallel.
section
attribute [local simp] step
end

/-- `StateDB` as the journal machine over `World`: its world, journal,
`validRevisions` and `nextRevisionId`. -/
abbrev StateDB := Machine World Entry InternalAddress

/-- The world of `New` over an empty trie: no objects, no refund, logs or
preimages, and an empty access list. -/
def World.empty : World :=
  ⟨fun _ => none, false, fun _ => false, 0, 0, 0, fun _ => [], 0, fun _ => none, AccessList.empty⟩

/-- `New`: an empty journal and no revisions. -/
def StateDB.new : StateDB := ⟨World.empty, ⟨[], fun _ => 0⟩, [], 0⟩

theorem wellFormed_new : StateDB.new.WellFormed :=
  ⟨List.Pairwise.nil, fun _ h => absurd h List.not_mem_nil⟩

/-! ## Every setter is undone by its entries -/

section Undo

open World

variable {keccak nodeLocation}

theorem deleted_of_getStateObject {w : World} {addr : InternalAddress} {obj : StateObject}
    (h : w.getStateObject addr = some obj) : obj.deleted = false := by
  unfold getStateObject at h
  split at h
  · split_ifs at h with hdel
    cases h
    simpa using hdel
  · cases h

theorem undoes_of_get {w : World} {addr : InternalAddress} {obj : StateObject}
    (h : w.getStateObject addr = some obj) : Undoes Entry.revert [] (w.setStateObject addr obj) w := by
  rw [Undoes, undoAll, setStateObject_of_get h]

/-- An entry that puts back what a setter changed on a live object undoes
the setter. -/
theorem undoes_modify {w : World} {addr : InternalAddress} {obj obj' : StateObject} {e : Entry}
    {g : StateObject → StateObject} (he : ∀ w', e.revert w' = w'.modifyObject addr g)
    (h : w.getStateObject addr = some obj) (hdel : obj'.deleted = obj.deleted) (hg : g obj' = obj) :
    Undoes Entry.revert [e] (w.setStateObject addr obj') w := by
  rw [Undoes, undoAll_singleton, he, modifyObject,
    getStateObject_setStateObject (hdel.trans (deleted_of_getStateObject h)), Option.map_some,
    setStateObject_setStateObject, hg, setStateObject_of_get h]

/-- The entries of an object's setter undo it wherever the object is live. -/
def UndoesChange (addr : InternalAddress) (f : StateObject → StateObject.Change) : Prop :=
  ∀ w obj, w.getStateObject addr = some obj →
    Undoes Entry.revert (f obj).2.1 (w.setStateObject addr (f obj).1) w

namespace StateObject

theorem undoesChange_touch (addr : InternalAddress) : UndoesChange addr fun obj => obj.touch addr := by
  intro w obj h
  dsimp only
  rw [Undoes, touch, undoAll_singleton, Entry.revert, setStateObject_of_get h]

theorem undoesChange_setBalance (addr : InternalAddress) (amount : StateObject → ℤ) :
    UndoesChange addr fun obj => obj.setBalance addr (amount obj) :=
  fun _ _ h => undoes_modify (fun _ => rfl) h rfl rfl

theorem undoesChange_setNonce (addr : InternalAddress) (nonce : ℕ) :
    UndoesChange addr fun obj => obj.setNonce addr nonce :=
  fun _ _ h => undoes_modify (fun _ => rfl) h rfl rfl

theorem undoesChange_setCode (addr : InternalAddress) (codeHash : Hash) (code : List UInt8) :
    UndoesChange addr fun obj => obj.setCode addr codeHash code :=
  fun _ _ h => undoes_modify (fun _ => rfl) h rfl rfl

theorem undoesChange_setState (addr : InternalAddress) (key value : Hash) :
    UndoesChange addr fun obj => obj.setState addr key value := by
  intro w obj h
  dsimp only
  unfold setState
  split_ifs with hsame
  · exact undoes_of_get h
  · -- the entry writes the old value back under the key
    refine undoes_modify (fun _ => rfl) h rfl ?_
    simp only [update_idem, update_eq_self]

theorem undoesChange_addBalance (addr : InternalAddress) (amount : ℤ) :
    UndoesChange addr fun obj => obj.addBalance keccak addr amount := by
  intro w obj h
  dsimp only
  unfold addBalance
  split_ifs
  · exact undoesChange_touch addr w obj h
  · exact undoes_of_get h
  · exact undoesChange_setBalance addr (fun obj => obj.balance + amount) w obj h

theorem undoesChange_subBalance (addr : InternalAddress) (amount : ℤ) :
    UndoesChange addr fun obj => obj.subBalance addr amount := by
  intro w obj h
  dsimp only
  unfold subBalance
  split_ifs
  · exact undoes_of_get h
  · exact undoesChange_setBalance addr (fun obj => obj.balance - amount) w obj h

end StateObject

/-- `createObject` creates nothing out of scope; in scope the new object is
live, and its one entry undoes the creation whatever the object became. -/
theorem createObject_eq {w w₁ : World} {addr : InternalAddress} {es : List Entry}
    {r : Option (StateObject × Option StateObject)}
    (h : createObject keccak nodeLocation w addr = some (w₁, es, r)) :
    (r = none ∧ w₁ = w ∧ es = []) ∨
      (∃ p, r = some (newObject keccak, p) ∧ w₁.getStateObject addr = some (newObject keccak) ∧
        ∀ o, Undoes Entry.revert es (w₁.setStateObject addr o) w) := by
  unfold createObject at h
  rcases hs : isInChainScope nodeLocation addr.bytes with _ | _ | _
  · simp [hs] at h
  · -- out of scope: nothing happens
    simp only [hs, Option.bind_eq_bind, Option.bind_some, Bool.not_false, if_true] at h
    simp only [pure, Option.some.injEq, Prod.mk.injEq] at h
    obtain ⟨rfl, rfl, rfl⟩ := h
    exact Or.inl ⟨rfl, rfl, rfl⟩
  · simp only [hs, Option.bind_eq_bind, Option.bind_some, Bool.not_true, Bool.false_eq_true,
      if_false, pure, Option.some.injEq, Prod.mk.injEq] at h
    obtain ⟨rfl, rfl, rfl⟩ := h
    refine Or.inr ⟨_, rfl, by simp [getStateObject, newObject], fun o => ?_⟩
    rcases hprev : w.stateObjects addr with _ | p
    · -- a fresh address: the entry deletes the object again
      have hso : update w.stateObjects addr none = w.stateObjects := update_eq_self_iff.mpr hprev.symm
      simp only [Undoes, undoAll_singleton, Entry.revert, setStateObject, update_idem, hso,
        Option.isSome_none, Bool.and_false, Bool.false_and, Bool.false_eq_true, if_false]
    · -- a replaced object: the entry puts it back and clears the destruct mark it set
      have hso : update w.stateObjects addr (some p) = w.stateObjects :=
        update_eq_self_iff.mpr hprev.symm
      simp only [Undoes, undoAll_singleton, Entry.revert, setStateObject, update_idem, hso,
        Option.isSome_some, Bool.and_true, Option.some.injEq]
      apply World.ext <;> try rfl
      cases w.snapActive <;> cases hsd : w.snapDestructs addr <;>
        simp only [Bool.not_false, Bool.not_true, Bool.and_self, Bool.and_false, Bool.false_and,
          Bool.false_eq_true, if_false, if_true, update_idem]
      exact update_eq_self_iff.mpr hsd.symm

theorem undoes_updateObject {w w' : World} {addr : InternalAddress}
    {f : StateObject → StateObject.Change} {es : List Entry} {xs : List InternalAddress}
    (hf : UndoesChange addr f) (h : updateObject keccak nodeLocation w addr f = some (w', es, xs)) :
    Undoes Entry.revert es w' w := by
  unfold updateObject getOrNewStateObject at h
  rcases hget : w.getStateObject addr with _ | obj
  · -- a missing object is created first, and its entry comes first
    rcases hc : createObject keccak nodeLocation w addr with _ | ⟨w₁, es₁, r⟩
    · simp [hget, hc] at h
    rcases createObject_eq hc with ⟨rfl, rfl, rfl⟩ | ⟨p, rfl, hlive, hundo⟩
    · simp only [hget, hc, Option.map_some, Option.map_none, Option.bind_eq_bind, Option.bind_some,
        Option.some.injEq, Prod.mk.injEq] at h
      obtain ⟨rfl, rfl, -⟩ := h
      rfl
    · simp only [hget, hc, Option.map_some, Option.bind_eq_bind, Option.bind_some,
        Option.some.injEq, Prod.mk.injEq] at h
      obtain ⟨rfl, rfl, -⟩ := h
      have hcreated := hundo (newObject keccak)
      rw [setStateObject_of_get hlive] at hcreated
      exact hcreated.append Entry.revert (hf w₁ _ hlive)
  · simp only [hget, Option.bind_eq_bind, Option.bind_some, Option.some.injEq,
      Prod.mk.injEq] at h
    obtain ⟨rfl, rfl, -⟩ := h
    rw [List.nil_append]
    exact hf w obj hget

/-- Each setter's entries undo it. -/
theorem step_undoes (op : Op) {w w' : World} {es : List Entry} {xs : List InternalAddress}
    (h : step keccak nodeLocation op w = some (w', es, xs)) : Undoes Entry.revert es w' w := by
  cases op with
  | createAccount addr =>
      simp only [step, Option.bind_eq_bind] at h
      rcases hc : createObject keccak nodeLocation w addr with _ | ⟨w₁, es₁, r⟩
      · simp [hc] at h
      rw [hc, Option.bind_some] at h
      rcases createObject_eq hc with ⟨rfl, rfl, rfl⟩ | ⟨p, rfl, hlive, hundo⟩
      · simp only [Option.some.injEq, Prod.mk.injEq] at h
        obtain ⟨rfl, rfl, -⟩ := h
        rfl
      · -- whatever balance the new object got, the entry puts the old object back
        cases p with
        | none =>
            simp only [Option.some.injEq, Prod.mk.injEq] at h
            obtain ⟨rfl, rfl, -⟩ := h
            have hcreated := hundo (newObject keccak)
            rwa [setStateObject_of_get hlive] at hcreated
        | some prev =>
            simp only [Option.some.injEq, Prod.mk.injEq] at h
            obtain ⟨rfl, rfl, -⟩ := h
            exact hundo _
  | addBalance addr amount => exact undoes_updateObject (StateObject.undoesChange_addBalance addr amount) h
  | subBalance addr amount => exact undoes_updateObject (StateObject.undoesChange_subBalance addr amount) h
  | setBalance addr amount =>
      exact undoes_updateObject (StateObject.undoesChange_setBalance addr fun _ => amount) h
  | setNonce addr nonce => exact undoes_updateObject (StateObject.undoesChange_setNonce addr nonce) h
  | setCode addr code =>
      exact undoes_updateObject (StateObject.undoesChange_setCode addr (keccak code) code) h
  | setState addr key value =>
      exact undoes_updateObject (StateObject.undoesChange_setState addr key value) h
  | suicide addr =>
      simp only [step] at h
      rcases hget : w.getStateObject addr with _ | obj
      · simp only [hget, Option.some.injEq, Prod.mk.injEq] at h
        obtain ⟨rfl, rfl, -⟩ := h
        rfl
      · simp only [hget, Option.some.injEq, Prod.mk.injEq] at h
        obtain ⟨rfl, rfl, -⟩ := h
        have hlive : (w.setStateObject addr { obj with suicided := true, balance := 0 }).getStateObject
            addr = some { obj with suicided := true, balance := 0 } :=
          getStateObject_setStateObject (show obj.deleted = false from deleted_of_getStateObject hget)
        rw [Undoes, undoAll_singleton, Entry.revert, hlive]
        simp only [setStateObject_setStateObject, setStateObject_of_get hget]
  | addRefund gas =>
      simp only [step, Option.some.injEq, Prod.mk.injEq] at h
      obtain ⟨rfl, rfl, -⟩ := h
      rfl
  | subRefund gas =>
      simp only [step] at h
      split_ifs at h
      simp only [Option.some.injEq, Prod.mk.injEq] at h
      obtain ⟨rfl, rfl, -⟩ := h
      rfl
  | addLog log =>
      simp only [step, Option.some.injEq, Prod.mk.injEq] at h
      obtain ⟨rfl, rfl, -⟩ := h
      rw [Undoes, undoAll_singleton, Entry.revert]
      simp only [update_self, List.length_append, List.length_singleton, Nat.add_sub_cancel,
        List.take_left' rfl, update_idem, update_eq_self, Nat.add_eq_zero_iff, one_ne_zero,
        and_false, if_false]
      split_ifs with hone
      · -- the first log of the transaction: the key goes again
        have hnil : w.logs w.thash = [] := List.eq_nil_of_length_eq_zero (by omega)
        rw [← hnil, update_eq_self]
      · rfl
  | addPreimage hash preimage =>
      simp only [step] at h
      split_ifs at h with hsome
      · simp only [Option.some.injEq, Prod.mk.injEq] at h
        obtain ⟨rfl, rfl, -⟩ := h
        rfl
      · simp only [Option.some.injEq, Prod.mk.injEq] at h
        obtain ⟨rfl, rfl, -⟩ := h
        have hnone : w.preimages hash = none := Option.not_isSome_iff_eq_none.mp hsome
        rw [Undoes, undoAll_singleton, Entry.revert]
        simp only [update_idem, ← hnone, update_eq_self]
  | addAddressToAccessList addr =>
      simp only [step] at h
      rcases hadd : w.accessList.addAddress addr.bytes20 with ⟨al, _ | _⟩
      · -- already present: nothing changed
        have hal : al = w.accessList := by
          unfold AccessList.addAddress at hadd
          split_ifs at hadd <;> simp_all
        simp only [hadd, hal, Option.some.injEq, Prod.mk.injEq] at h
        obtain ⟨rfl, rfl, -⟩ := h
        rfl
      · simp only [hadd, if_true, Option.some.injEq, Prod.mk.injEq] at h
        obtain ⟨rfl, rfl, -⟩ := h
        rw [Undoes, undoAll_singleton, Entry.revert, AccessList.deleteAddress_addAddress hadd]
  | addSlotToAccessList addr slot =>
      simp only [step, Option.bind_eq_bind] at h
      rcases hadd : w.accessList.addSlot addr.bytes20 slot with _ | ⟨al, addrMod, slotMod⟩
      · simp [hadd] at h
      simp only [hadd, Option.bind_some, Option.some.injEq, Prod.mk.injEq] at h
      obtain ⟨rfl, rfl, -⟩ := h
      -- the slot's entry is undone first, then the address's
      have hundo := AccessList.undo_addSlot hadd
      cases addrMod <;> cases slotMod <;>
        simp only [Bool.false_eq_true, if_false, if_true, Option.map_some, Option.map_eq_some_iff,
          Option.some.injEq, List.nil_append, List.append_nil, List.singleton_append] at hundo ⊢
      · subst hundo
        rfl
      · obtain ⟨a, ha, rfl⟩ := hundo
        simp [Undoes, Entry.revert, ha]
      · simp [Undoes, Entry.revert, hundo]
      · obtain ⟨a, ha, hdel⟩ := hundo
        simp [Undoes, undoAll, Entry.revert, ha, hdel]

end Undo

/-! ## Marks by hand, and reverting a run -/

section Revert

variable {keccak nodeLocation}

theorem StateObject.eq_ripemd_of_mem_touch {obj : StateObject} {addr x : InternalAddress}
    (hx : x ∈ (obj.touch addr).2.2) : x = ripemd := by
  unfold StateObject.touch at hx
  split_ifs at hx with hb
  · rw [List.mem_singleton] at hx
    subst hx
    -- `bytes.Equal` on the twenty bytes is equality of the addresses
    cases x
    simp only [ripemd, setBytes, AddressBytes.mk.injEq] at hb ⊢
    exact hb
  · simp at hx

theorem eq_ripemd_of_mem_updateObject {w w' : World} {addr : InternalAddress}
    {f : StateObject → StateObject.Change} {es : List Entry} {xs : List InternalAddress}
    (hf : ∀ obj, ∀ x ∈ (f obj).2.2, x = ripemd)
    (h : updateObject keccak nodeLocation w addr f = some (w', es, xs)) : ∀ x ∈ xs, x = ripemd := by
  unfold updateObject at h
  rcases hg : getOrNewStateObject keccak nodeLocation w addr with _ | ⟨w₁, es₁, _ | obj⟩
  · simp [hg] at h
  · simp only [hg, Option.bind_eq_bind, Option.bind_some, Option.some.injEq, Prod.mk.injEq] at h
    obtain ⟨-, -, rfl⟩ := h
    simp
  · simp only [hg, Option.bind_eq_bind, Option.bind_some, Option.some.injEq, Prod.mk.injEq] at h
    obtain ⟨-, -, rfl⟩ := h
    exact hf obj

/-- The only address a setter marks by hand is RIPEMD's, through `touch`. -/
theorem eq_ripemd_of_mem_step (op : Op) {w w' : World} {es : List Entry}
    {xs : List InternalAddress} (h : step keccak nodeLocation op w = some (w', es, xs)) :
    ∀ x ∈ xs, x = ripemd := by
  cases op with
  | addBalance addr amount =>
      -- adding zero to an empty object touches it
      refine eq_ripemd_of_mem_updateObject (fun obj x hx => ?_) (by simpa only [step] using h)
      simp only [StateObject.addBalance] at hx
      split_ifs at hx
      · exact StateObject.eq_ripemd_of_mem_touch hx
      · simp at hx
      · simp [StateObject.setBalance] at hx
  | subBalance addr amount =>
      refine eq_ripemd_of_mem_updateObject (fun obj x hx => ?_) (by simpa only [step] using h)
      simp only [StateObject.subBalance] at hx
      split_ifs at hx <;> simp [StateObject.setBalance] at hx
  | setBalance addr amount =>
      refine eq_ripemd_of_mem_updateObject (fun obj x hx => ?_) (by simpa only [step] using h)
      simp [StateObject.setBalance] at hx
  | setNonce addr nonce =>
      refine eq_ripemd_of_mem_updateObject (fun obj x hx => ?_) (by simpa only [step] using h)
      simp [StateObject.setNonce] at hx
  | setCode addr code =>
      refine eq_ripemd_of_mem_updateObject (fun obj x hx => ?_) (by simpa only [step] using h)
      simp [StateObject.setCode] at hx
  | setState addr key value =>
      refine eq_ripemd_of_mem_updateObject (fun obj x hx => ?_) (by simpa only [step] using h)
      simp only [StateObject.setState] at hx
      split_ifs at hx <;> simp at hx
  | createAccount addr =>
      simp only [step, Option.bind_eq_bind] at h
      rcases hc : createObject keccak nodeLocation w addr with _ | ⟨w₁, es₁, _ | ⟨_, _ | _⟩⟩ <;>
        simp [hc] at h <;> simp [h]
  | suicide addr =>
      simp only [step] at h
      split at h <;> simp_all
  | addRefund gas => simp_all [step]
  | subRefund gas =>
      simp only [step] at h
      split_ifs at h
      simp_all
  | addLog log => simp_all [step]
  | addPreimage hash preimage =>
      simp only [step] at h
      split_ifs at h <;> simp_all
  | addAddressToAccessList addr => simp_all [step]
  | addSlotToAccessList addr slot =>
      simp only [step, Option.bind_eq_bind] at h
      rcases hadd : w.accessList.addSlot addr.bytes20 slot with _ | ⟨al, addrMod, slotMod⟩ <;>
        simp_all

theorem clean_of_ne_ripemd {a : InternalAddress} (ha : a ≠ ripemd) :
    Machine.Clean (step keccak nodeLocation) a :=
  fun op _ _ _ _ h hx => ha (eq_ripemd_of_mem_step op h a hx)

/-- `RevertToSnapshot` to the id `Snapshot` returned, after any run of setters,
snapshots and reverts to later snapshots, restores the world, the journal's
entries and the live revisions, and the dirty count of every address but
RIPEMD's; RIPEMD's count can only have grown. -/
theorem revertToSnapshot_restores_world {m₀ m : StateDB} (hwf : m₀.WellFormed)
    {cmds : List (Cmd Op)} (hcmds : ∀ revid, Cmd.revertToSnapshot revid ∈ cmds → m₀.snapshot.1 < revid)
    (hrun : Machine.run Entry.revert Entry.dirtied (step keccak nodeLocation) cmds m₀.snapshot.2 = some m) :
    ∃ m', m.revertToSnapshot Entry.revert Entry.dirtied m₀.snapshot.1 = some m' ∧
      m'.state = m₀.state ∧ m'.journal.entries = m₀.journal.entries ∧
      m'.validRevisions = m₀.validRevisions ∧
      (∀ a, a ≠ ripemd → m'.journal.dirties a = m₀.journal.dirties a) ∧
      m₀.journal.dirties ripemd ≤ m'.journal.dirties ripemd := by
  obtain ⟨m', hrev, hstate, hentries, hrevs, hdirties⟩ :=
    revertToSnapshot_run (fun op _ _ _ _ h => step_undoes op h) hwf hcmds hrun
  exact ⟨m', hrev, hstate, hentries, hrevs,
    fun a ha => (hdirties a).2 (clean_of_ne_ripemd ha), (hdirties ripemd).1⟩

/-- Adding zero to RIPEMD's fresh, empty object in a zone and reverting it
leaves RIPEMD's dirty count at one: its creation and touch are taken back,
the mark by hand is not. -/
theorem revertToSnapshot_keeps_ripemd_dirty :
    ∃ m m', Machine.run Entry.revert Entry.dirtied (step (fun _ => 0) [0, 0])
        [.act (.addBalance ripemd 0)] StateDB.new.snapshot.2 = some m ∧
      m.revertToSnapshot Entry.revert Entry.dirtied StateDB.new.snapshot.1 = some m' ∧
      m'.journal.dirties ripemd = 1 ∧ StateDB.new.journal.dirties ripemd = 0 :=
  ⟨_, _, rfl, rfl, by decide, rfl⟩

theorem revertToSnapshot_restores_world_touch :
    ∃ m, Machine.run Entry.revert Entry.dirtied (step (fun _ => 0) [0, 0])
        [.act (.addBalance ripemd 0)] StateDB.new.snapshot.2 = some m ∧
      ∃ m', m.revertToSnapshot Entry.revert Entry.dirtied StateDB.new.snapshot.1 = some m' ∧
        m'.state = StateDB.new.state ∧ m'.journal.entries = StateDB.new.journal.entries ∧
        m'.validRevisions = StateDB.new.validRevisions ∧
        (∀ a, a ≠ ripemd → m'.journal.dirties a = StateDB.new.journal.dirties a) ∧
        StateDB.new.journal.dirties ripemd ≤ m'.journal.dirties ripemd :=
  ⟨_, rfl, @revertToSnapshot_restores_world (fun _ => 0) [0, 0] StateDB.new _ wellFormed_new
    [.act (.addBalance ripemd 0)] (fun revid h => absurd h (by simp)) rfl⟩

/-- Every state database reached from `New` meets the precondition of the
revert: whatever run of setters, snapshots and reverts built it, a
`RevertToSnapshot` to the id its `Snapshot` returns, after any run of commands
that reverts only to later snapshots, restores its world, journal entries and
live revisions, and the dirty count of every address but RIPEMD's. -/
theorem revertToSnapshot_restores_reachable {cmds₀ cmds : List (Cmd Op)} {m₀ m : StateDB}
    (h₀ : Machine.run Entry.revert Entry.dirtied (step keccak nodeLocation) cmds₀ StateDB.new = some m₀)
    (hcmds : ∀ revid, Cmd.revertToSnapshot revid ∈ cmds → m₀.snapshot.1 < revid)
    (hrun : Machine.run Entry.revert Entry.dirtied (step keccak nodeLocation) cmds m₀.snapshot.2 = some m) :
    ∃ m', m.revertToSnapshot Entry.revert Entry.dirtied m₀.snapshot.1 = some m' ∧
      m'.state = m₀.state ∧ m'.journal.entries = m₀.journal.entries ∧
      m'.validRevisions = m₀.validRevisions ∧
      (∀ a, a ≠ ripemd → m'.journal.dirties a = m₀.journal.dirties a) ∧
      m₀.journal.dirties ripemd ≤ m'.journal.dirties ripemd := by
  -- every command keeps the revisions sorted and below the next id
  have hwf : m₀.WellFormed :=
    Machine.wellFormed_run Entry.revert Entry.dirtied (step keccak nodeLocation) cmds₀ wellFormed_new h₀
  obtain ⟨m', hrev, hstate, hentries, hrevs, hdirties⟩ :=
    revertToSnapshot_run (fun op _ _ _ _ h => step_undoes op h) hwf hcmds hrun
  exact ⟨m', hrev, hstate, hentries, hrevs,
    fun a ha => (hdirties a).2 (clean_of_ne_ripemd ha), (hdirties ripemd).1⟩

/-- RIPEMD touched in a zone, then a snapshot, a revert to it and a second touch. -/
theorem revertToSnapshot_restores_reachable_touched :
    ∃ m₀, Machine.run Entry.revert Entry.dirtied (step (fun _ => 0) [0, 0])
        [.act (.addBalance ripemd 0), .snapshot, .revertToSnapshot 0] StateDB.new = some m₀ ∧
      ∃ m, Machine.run Entry.revert Entry.dirtied (step (fun _ => 0) [0, 0])
          [.act (.addBalance ripemd 1)] m₀.snapshot.2 = some m ∧
        ∃ m', m.revertToSnapshot Entry.revert Entry.dirtied m₀.snapshot.1 = some m' ∧
          m'.state = m₀.state ∧ m'.journal.entries = m₀.journal.entries ∧
          m'.validRevisions = m₀.validRevisions ∧
          (∀ a, a ≠ ripemd → m'.journal.dirties a = m₀.journal.dirties a) ∧
          m₀.journal.dirties ripemd ≤ m'.journal.dirties ripemd :=
  ⟨_, rfl, _, rfl, @revertToSnapshot_restores_reachable (fun _ => 0) [0, 0]
    [.act (.addBalance ripemd 0), .snapshot, .revertToSnapshot 0] [.act (.addBalance ripemd 1)] _ _ rfl
    (fun revid h => absurd h (by simp)) rfl⟩

end Revert

end GoQuai.State
