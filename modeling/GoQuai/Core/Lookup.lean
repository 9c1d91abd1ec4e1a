import Mathlib

/-! # The pool's lookup of all its transactions, core/tx_pool.go

`txLookup` keeps every transaction of the pool by hash, the local ones and the
remote ones apart, and counts the slots they take. The pool adds a
transaction only when `Get` does not know its hash (`add` answers
`ErrAlreadyKnown` otherwise); that is the precondition of `Add` in the runs
below. `RemoteToLocals` ranges over the remotes in an order the runtime picks,
so it takes that order, and `Range` enters through its caller
`RemotesBelowTip`, whose callback keeps going on every transaction.
-/

namespace GoQuai.TxPool

/-- What the lookup reads of a transaction: `Hash`, `numSlots` and `GasTipCap`. -/
structure LookupFields (κ τ : Type) where
  hash : τ → κ
  numSlots : τ → ℕ
  gasTipCap : τ → ℕ

/-- `txLookup`, without its lock. -/
structure TxLookup (κ τ : Type) where
  slots : ℤ
  locals : Finmap fun _ : κ => τ
  remotes : Finmap fun _ : κ => τ

namespace TxLookup

variable {κ τ : Type} [DecidableEq κ] (F : LookupFields κ τ)

/-- `newTxLookup`. -/
def new : TxLookup κ τ := ⟨0, ∅, ∅⟩

/-- `Get`: the local transaction, else the remote one. -/
def get (t : TxLookup κ τ) (hash : κ) : Option τ := (t.locals.lookup hash).or (t.remotes.lookup hash)

/-- `GetLocal`. -/
def getLocal (t : TxLookup κ τ) (hash : κ) : Option τ := t.locals.lookup hash

/-- `GetRemote`. -/
def getRemote (t : TxLookup κ τ) (hash : κ) : Option τ := t.remotes.lookup hash

/-- `Count`. -/
def count (t : TxLookup κ τ) : ℕ := t.locals.keys.card + t.remotes.keys.card

/-- `LocalCount`. -/
def localCount (t : TxLookup κ τ) : ℕ := t.locals.keys.card

/-- `RemoteCount`. -/
def remoteCount (t : TxLookup κ τ) : ℕ := t.remotes.keys.card

/-- `Add`. -/
def add (tx : τ) (isLocal : Bool) (t : TxLookup κ τ) : TxLookup κ τ :=
  let t := { t with slots := t.slots + F.numSlots tx }
  if isLocal then { t with locals := t.locals.insert (F.hash tx) tx }
  else { t with remotes := t.remotes.insert (F.hash tx) tx }

/-- `Remove`: an unknown hash leaves the lookup as it is. -/
def remove (hash : κ) (t : TxLookup κ τ) : TxLookup κ τ :=
  match (t.locals.lookup hash).or (t.remotes.lookup hash) with
  | none => t
  | some tx => ⟨t.slots - F.numSlots tx, t.locals.erase hash, t.remotes.erase hash⟩

/-- The loop of `RemoteToLocals`, over the remotes' hashes in the order `range`
visits them. -/
def remoteToLocalsLoop (containsTx : τ → Bool) : List κ → ℕ → TxLookup κ τ → ℕ × TxLookup κ τ
  | [], migrated, t => (migrated, t)
  | hash :: order, migrated, t =>
      match t.remotes.lookup hash with
      | some tx =>
          if containsTx tx then
            remoteToLocalsLoop containsTx order (migrated + 1)
              { t with locals := t.locals.insert hash tx, remotes := t.remotes.erase hash }
          else remoteToLocalsLoop containsTx order migrated t
      | none => remoteToLocalsLoop containsTx order migrated t

/-- `RemoteToLocals`: `containsTx` is the local accounts' `containsTx`. -/
def remoteToLocals (containsTx : τ → Bool) (order : List κ) (t : TxLookup κ τ) : ℕ × TxLookup κ τ :=
  remoteToLocalsLoop containsTx order 0 t

/-- `RemotesBelowTip`. -/
def remotesBelowTip (threshold : ℕ) (order : List κ) (t : TxLookup κ τ) : List τ :=
  (order.filterMap t.remotes.lookup).filter fun tx => F.gasTipCap tx < threshold

/-- The calls the pool makes on its lookup. -/
inductive Op (κ τ : Type)
  | add (tx : τ) (isLocal : Bool)
  | remove (hash : κ)
  | remoteToLocals (containsTx : τ → Bool) (order : List κ)

def Op.apply : Op κ τ → TxLookup κ τ → TxLookup κ τ
  | .add tx isLocal, t => t.add F tx isLocal
  | .remove hash, t => t.remove F hash
  | .remoteToLocals containsTx order, t => (t.remoteToLocals containsTx order).2

/-- What holds when the pool makes a call: it adds only a transaction whose
hash the lookup does not know, and `range` visits each remote once. -/
def Op.Fits : Op κ τ → TxLookup κ τ → Prop
  | .add tx _, t => t.get (F.hash tx) = none
  | .remove _, _ => True
  | .remoteToLocals _ order, t => order.Nodup ∧ order.toFinset = t.remotes.keys

/-- The lookups the pool reaches from `newTxLookup`. -/
inductive Reachable : TxLookup κ τ → Prop
  | new : Reachable new
  | step {t : TxLookup κ τ} (op : Op κ τ) : Reachable t → op.Fits F t → Reachable (op.apply F t)

/-- The slots the transactions of one of the maps take. -/
def mapSlots (m : Finmap fun _ : κ => τ) : ℕ := ∑ h ∈ m.keys, ((m.lookup h).map F.numSlots).getD 0

/-! ## Maps -/

theorem keys_insert (h : κ) (tx : τ) (m : Finmap fun _ : κ => τ) : (m.insert h tx).keys = insert h m.keys := by
  ext k
  simp [Finmap.mem_keys, Finmap.mem_insert]

theorem erase_of_lookup_eq_none {h : κ} {m : Finmap fun _ : κ => τ} (hl : m.lookup h = none) :
    m.erase h = m :=
  Finmap.ext_lookup fun k => by
    by_cases hk : k = h
    · rw [hk, Finmap.lookup_erase, hl]
    · exact Finmap.lookup_erase_ne hk

variable {F}

theorem mapSlots_insert {h : κ} {m : Finmap fun _ : κ => τ} (hl : m.lookup h = none) (tx : τ) :
    mapSlots F (m.insert h tx) = mapSlots F m + F.numSlots tx := by
  have hk : h ∉ m.keys := fun hk => Finmap.lookup_eq_none.mp hl (Finmap.mem_keys.mp hk)
  rw [mapSlots, keys_insert, Finset.sum_insert hk, Finmap.lookup_insert, add_comm]
  congr 1
  refine Finset.sum_congr rfl fun k hk' => ?_
  have hne : k ≠ h := by
    rintro rfl
    exact hk hk'
  rw [Finmap.lookup_insert_of_ne _ hne]

theorem mapSlots_erase {h : κ} {m : Finmap fun _ : κ => τ} {tx : τ} (hl : m.lookup h = some tx) :
    mapSlots F m = mapSlots F (m.erase h) + F.numSlots tx := by
  have hk : h ∈ m.keys := Finmap.mem_keys.mpr (Finmap.mem_of_lookup_eq_some hl)
  rw [mapSlots, mapSlots, Finmap.keys_erase, ← Finset.add_sum_erase _ _ hk, hl, add_comm]
  congr 1
  refine Finset.sum_congr rfl fun k hk' => ?_
  rw [Finmap.lookup_erase_ne (Finset.ne_of_mem_erase hk')]

/-! ## The invariant -/

/-- What every lookup the pool reaches satisfies: no hash is both local and
remote, every transaction is stored under its hash, and `slots` counts the
slots of the transactions held. -/
structure Inv (F : LookupFields κ τ) (t : TxLookup κ τ) : Prop where
  disjoint : ∀ h, h ∈ t.locals → h ∉ t.remotes
  hash_local : ∀ h tx, t.locals.lookup h = some tx → F.hash tx = h
  hash_remote : ∀ h tx, t.remotes.lookup h = some tx → F.hash tx = h
  slots_eq : t.slots = mapSlots F t.locals + mapSlots F t.remotes

theorem inv_new : Inv F (new : TxLookup κ τ) where
  disjoint _ h := absurd h Finmap.notMem_empty
  hash_local _ _ h := by simp [new] at h
  hash_remote _ _ h := by simp [new] at h
  slots_eq := by simp [new, mapSlots]

theorem add_true (t : TxLookup κ τ) (tx : τ) :
    t.add F tx true = ⟨t.slots + F.numSlots tx, t.locals.insert (F.hash tx) tx, t.remotes⟩ := rfl

theorem add_false (t : TxLookup κ τ) (tx : τ) :
    t.add F tx false = ⟨t.slots + F.numSlots tx, t.locals, t.remotes.insert (F.hash tx) tx⟩ := rfl

/-- Storing a transaction under its own hash keeps a map keyed by hash. -/
theorem hash_of_insert {m : Finmap fun _ : κ => τ} (hm : ∀ h tx, m.lookup h = some tx → F.hash tx = h)
    (tx : τ) : ∀ h tx', (m.insert (F.hash tx) tx).lookup h = some tx' → F.hash tx' = h := by
  intro h tx' hl
  by_cases he : h = F.hash tx
  · rw [he, Finmap.lookup_insert] at hl
    cases hl
    exact he.symm
  · rw [Finmap.lookup_insert_of_ne _ he] at hl
    exact hm h tx' hl

theorem hash_of_erase {m : Finmap fun _ : κ => τ} (hm : ∀ h tx, m.lookup h = some tx → F.hash tx = h)
    (hash : κ) : ∀ h tx, (m.erase hash).lookup h = some tx → F.hash tx = h := by
  intro h tx hl
  by_cases he : h = hash
  · rw [he, Finmap.lookup_erase] at hl
    cases hl
  · rw [Finmap.lookup_erase_ne he] at hl
    exact hm h tx hl

theorem Inv.add {t : TxLookup κ τ} (hi : Inv F t) {tx : τ} (hfit : t.get (F.hash tx) = none)
    (isLocal : Bool) : Inv F (t.add F tx isLocal) := by
  obtain ⟨hl, hr⟩ := Option.or_eq_none_iff.mp hfit
  cases isLocal with
  | true =>
      rw [add_true]
      refine ⟨fun h hm => ?_, hash_of_insert hi.hash_local tx, hi.hash_remote, ?_⟩
      · rcases Finmap.mem_insert.mp hm with rfl | hm
        · exact Finmap.lookup_eq_none.mp hr
        · exact hi.disjoint h hm
      · simp only [mapSlots_insert hl, hi.slots_eq]
        push_cast
        ring
  | false =>
      rw [add_false]
      refine ⟨fun h hm hm' => ?_, hi.hash_local, hash_of_insert hi.hash_remote tx, ?_⟩
      · rcases Finmap.mem_insert.mp hm' with rfl | hm'
        · exact Finmap.lookup_eq_none.mp hl hm
        · exact hi.disjoint h hm hm'
      · simp only [mapSlots_insert hr, hi.slots_eq]
        push_cast
        ring

theorem Inv.remove {t : TxLookup κ τ} (hi : Inv F t) (hash : κ) : Inv F (t.remove F hash) := by
  unfold TxLookup.remove
  cases hget : (t.locals.lookup hash).or (t.remotes.lookup hash) with
  | none => exact hi
  | some tx =>
      refine ⟨fun h hm hm' => hi.disjoint h (Finmap.mem_erase.mp hm).2 (Finmap.mem_erase.mp hm').2,
        hash_of_erase hi.hash_local hash, hash_of_erase hi.hash_remote hash, ?_⟩
      -- the transaction removed is the one of the map that holds the hash
      rcases Option.or_eq_some_iff.mp hget with hl | ⟨hl, hr⟩
      · have hr : t.remotes.lookup hash = none :=
          Finmap.lookup_eq_none.mpr (hi.disjoint hash (Finmap.mem_of_lookup_eq_some hl))
        rw [erase_of_lookup_eq_none hr, hi.slots_eq, mapSlots_erase hl]
        push_cast
        ring
      · rw [erase_of_lookup_eq_none hl, hi.slots_eq, mapSlots_erase hr]
        push_cast
        ring

/-- One step of `RemoteToLocals`: a remote moves to the locals. -/
def move (hash : κ) (tx : τ) (t : TxLookup κ τ) : TxLookup κ τ :=
  { t with locals := t.locals.insert hash tx, remotes := t.remotes.erase hash }

theorem Inv.move {t : TxLookup κ τ} (hi : Inv F t) {hash : κ} {tx : τ}
    (hl : t.remotes.lookup hash = some tx) : Inv F (t.move hash tx) := by
  have hhash : F.hash tx = hash := hi.hash_remote hash tx hl
  have hnl : t.locals.lookup hash = none :=
    Finmap.lookup_eq_none.mpr fun hm => hi.disjoint hash hm (Finmap.mem_of_lookup_eq_some hl)
  refine ⟨fun h hm hm' => ?_, ?_, hash_of_erase hi.hash_remote hash, ?_⟩
  · rcases Finmap.mem_insert.mp hm with rfl | hm
    · exact Finmap.notMem_erase_self hm'
    · exact hi.disjoint h hm (Finmap.mem_erase.mp hm').2
  · rw [TxLookup.move, ← hhash]
    exact hash_of_insert hi.hash_local tx
  · simp only [TxLookup.move, mapSlots_insert hnl, hi.slots_eq, mapSlots_erase hl]
    push_cast
    ring

/-- Moving a remote to the locals changes no answer of `Get`. -/
theorem get_move {t : TxLookup κ τ} (hi : Inv F t) {hash : κ} {tx : τ}
    (hl : t.remotes.lookup hash = some tx) (h : κ) : (t.move hash tx).get h = t.get h := by
  have hnl : t.locals.lookup hash = none :=
    Finmap.lookup_eq_none.mpr fun hm => hi.disjoint hash hm (Finmap.mem_of_lookup_eq_some hl)
  by_cases he : h = hash
  · subst he
    simp [get, move, hnl, hl]
  · simp [get, move, Finmap.lookup_insert_of_ne _ he, Finmap.lookup_erase_ne he]

theorem card_move {t : TxLookup κ τ} (hi : Inv F t) {hash : κ} {tx : τ}
    (hl : t.remotes.lookup hash = some tx) :
    (t.move hash tx).localCount = t.localCount + 1 ∧ (t.move hash tx).remoteCount + 1 = t.remoteCount := by
  have hmem : hash ∈ t.remotes.keys := Finmap.mem_keys.mpr (Finmap.mem_of_lookup_eq_some hl)
  have hnl : hash ∉ t.locals.keys := fun hm =>
    hi.disjoint hash (Finmap.mem_keys.mp hm) (Finmap.mem_of_lookup_eq_some hl)
  refine ⟨?_, ?_⟩
  · simp only [localCount, move, keys_insert, Finset.card_insert_of_notMem hnl]
  · simp only [remoteCount, move, Finmap.keys_erase, Finset.card_erase_of_mem hmem]
    have := Finset.card_pos.mpr ⟨hash, hmem⟩
    omega

/-- The loop of `RemoteToLocals` keeps the invariant, the slots and every answer
of `Get`; a remote it leaves was a remote before and, if visited, does not
belong to a local account; and it counts each transaction it moves. -/
theorem remoteToLocalsLoop_spec (containsTx : τ → Bool) :
    ∀ (order : List κ) (migrated : ℕ) (t : TxLookup κ τ), Inv F t →
      Inv F (remoteToLocalsLoop containsTx order migrated t).2 ∧
        (remoteToLocalsLoop containsTx order migrated t).2.slots = t.slots ∧
        (∀ h, (remoteToLocalsLoop containsTx order migrated t).2.get h = t.get h) ∧
        (∀ h tx, (remoteToLocalsLoop containsTx order migrated t).2.remotes.lookup h = some tx →
          t.remotes.lookup h = some tx ∧ (h ∈ order → containsTx tx = false)) ∧
        (remoteToLocalsLoop containsTx order migrated t).2.localCount + migrated =
          t.localCount + (remoteToLocalsLoop containsTx order migrated t).1 ∧
        (remoteToLocalsLoop containsTx order migrated t).2.remoteCount +
          (remoteToLocalsLoop containsTx order migrated t).1 = t.remoteCount + migrated
  | [], migrated, t, hi => ⟨hi, rfl, fun _ => rfl, fun _ _ hr => ⟨hr, fun hm => absurd hm List.not_mem_nil⟩, rfl, rfl⟩
  | hash :: order, migrated, t, hi => by
      by_cases hmove : ∃ tx, t.remotes.lookup hash = some tx ∧ containsTx tx = true
      · obtain ⟨tx, hl, hc⟩ := hmove
        have hstep : remoteToLocalsLoop containsTx (hash :: order) migrated t =
            remoteToLocalsLoop containsTx order (migrated + 1) (t.move hash tx) := by
          simp [remoteToLocalsLoop, hl, hc, move]
        rw [hstep]
        obtain ⟨hinv, hslots, hget, hrem, hloc, hcount⟩ :=
          remoteToLocalsLoop_spec containsTx order (migrated + 1) (t.move hash tx) (hi.move hl)
        obtain ⟨hlc, hrc⟩ := card_move hi hl
        refine ⟨hinv, hslots, fun h => (hget h).trans (get_move hi hl h), fun h tx' hr => ?_, ?_, ?_⟩
        · obtain ⟨hr', hvis⟩ := hrem h tx' hr
          -- a remote left after the move is not the moved hash
          have hne : h ≠ hash := fun he => by
            rw [he] at hr'
            simp [move, Finmap.lookup_erase] at hr'
          rw [move, Finmap.lookup_erase_ne hne] at hr'
          exact ⟨hr', fun hm => hvis ((List.mem_cons.mp hm).resolve_left hne)⟩
        · omega
        · omega
      · -- the hash is no longer a remote, or not of a local account: the loop goes on with `t`
        have hskip : ∀ tx, t.remotes.lookup hash = some tx → containsTx tx = false :=
          fun tx hl => by
            by_contra hc
            exact hmove ⟨tx, hl, by simpa using hc⟩
        have hstep : remoteToLocalsLoop containsTx (hash :: order) migrated t =
            remoteToLocalsLoop containsTx order migrated t := by
          cases hl : t.remotes.lookup hash with
          | none => simp [remoteToLocalsLoop, hl]
          | some tx => simp [remoteToLocalsLoop, hl, hskip tx hl]
        rw [hstep]
        obtain ⟨hinv, hslots, hget, hrem, hloc, hcount⟩ := remoteToLocalsLoop_spec containsTx order migrated t hi
        refine ⟨hinv, hslots, hget, fun h tx hr => ?_, hloc, hcount⟩
        obtain ⟨hr', hvis⟩ := hrem h tx hr
        refine ⟨hr', fun hm => ?_⟩
        rcases List.mem_cons.mp hm with rfl | hm
        · exact hskip tx hr'
        · exact hvis hm

theorem Inv.apply {t : TxLookup κ τ} (hi : Inv F t) (op : Op κ τ) (hfit : op.Fits F t) :
    Inv F (op.apply F t) := by
  cases op with
  | add tx isLocal => exact hi.add hfit isLocal
  | remove hash => exact hi.remove hash
  | remoteToLocals containsTx order => exact (remoteToLocalsLoop_spec containsTx order 0 t hi).1

theorem Reachable.inv {t : TxLookup κ τ} (ht : Reachable F t) : Inv F t := by
  induction ht with
  | new => exact inv_new
  | step op _ hfit ih => exact ih.apply op hfit

/-! ## What the pool reads off the lookup -/

/-- On every lookup the pool reaches, no hash is both local and remote, `Get`
finds every transaction under its own hash, `Count` counts each known hash
once, and `slots` is the sum of `numSlots` over the transactions held. -/
theorem lookup_slots_accounted {t : TxLookup κ τ} (ht : Reachable F t) :
    (∀ h, h ∈ t.locals → h ∉ t.remotes) ∧ (∀ h tx, t.get h = some tx → F.hash tx = h) ∧
      t.count = (t.locals.keys ∪ t.remotes.keys).card ∧
      t.slots = mapSlots F t.locals + mapSlots F t.remotes := by
  have hi := ht.inv
  refine ⟨hi.disjoint, fun h tx hg => ?_, ?_, hi.slots_eq⟩
  · rcases Option.or_eq_some_iff.mp hg with hl | ⟨-, hr⟩
    · exact hi.hash_local h tx hl
    · exact hi.hash_remote h tx hr
  · rw [count, Finset.card_union_of_disjoint]
    exact Finset.disjoint_left.mpr fun h hl hr =>
      hi.disjoint h (Finmap.mem_keys.mp hl) (Finmap.mem_keys.mp hr)

/-- Transactions that are their own hash and take one slot each. -/
def unitFields : LookupFields ℕ ℕ := ⟨id, fun _ => 1, id⟩

/-- A local transaction 5 and a remote transaction 7, added to a new lookup. -/
def twoTxLookup : TxLookup ℕ ℕ := ((new : TxLookup ℕ ℕ).add unitFields 5 true).add unitFields 7 false

theorem reachable_twoTxLookup : Reachable unitFields twoTxLookup :=
  .step (.add 7 false) (.step (.add 5 true) .new rfl) rfl

theorem lookup_slots_accounted_two :
    (∀ h, h ∈ twoTxLookup.locals → h ∉ twoTxLookup.remotes) ∧
      (∀ h tx, twoTxLookup.get h = some tx → unitFields.hash tx = h) ∧
      twoTxLookup.count = (twoTxLookup.locals.keys ∪ twoTxLookup.remotes.keys).card ∧
      twoTxLookup.slots = mapSlots unitFields twoTxLookup.locals + mapSlots unitFields twoTxLookup.remotes :=
  lookup_slots_accounted reachable_twoTxLookup

/-- `RemoteToLocals` over every remote moves exactly the remotes of local
accounts: `Get` answers as before, no remote left belongs to a local account,
the slots stay, and the count it returns is what the locals gained and the
remotes lost. -/
theorem remote_to_locals_migrates {t : TxLookup κ τ} (ht : Reachable F t) (containsTx : τ → Bool)
    {order : List κ} (horder : t.remotes.keys ⊆ order.toFinset) {n : ℕ} {t' : TxLookup κ τ}
    (hr : t.remoteToLocals containsTx order = (n, t')) :
    (∀ h, t'.get h = t.get h) ∧ (∀ h tx, t'.remotes.lookup h = some tx → containsTx tx = false) ∧
      t'.localCount = t.localCount + n ∧ t'.remoteCount + n = t.remoteCount ∧ t'.slots = t.slots := by
  obtain ⟨-, hslots, hget, hrem, hloc, hcount⟩ := remoteToLocalsLoop_spec containsTx order 0 t ht.inv
  rw [remoteToLocals] at hr
  rw [hr] at hslots hget hrem hloc hcount
  refine ⟨hget, fun h tx hl => ?_, by simpa using hloc, by simpa using hcount, hslots⟩
  obtain ⟨hl', hvis⟩ := hrem h tx hl
  exact hvis (List.mem_toFinset.mp (horder (Finmap.mem_keys.mpr (Finmap.mem_of_lookup_eq_some hl'))))

/-- The account of transaction 7 turns local: it moves, and the count is 1. -/
theorem remote_to_locals_migrates_two :
    ∃ t', twoTxLookup.remoteToLocals (· == 7) [7] = (1, t') ∧
      (∀ h, t'.get h = twoTxLookup.get h) ∧ (∀ h tx, t'.remotes.lookup h = some tx → (tx == 7) = false) ∧
      t'.localCount = twoTxLookup.localCount + 1 ∧ t'.remoteCount + 1 = twoTxLookup.remoteCount ∧
      t'.slots = twoTxLookup.slots :=
  ⟨_, rfl, @remote_to_locals_migrates ℕ ℕ _ unitFields twoTxLookup reachable_twoTxLookup (· == 7) [7]
    (by decide) 1 _ rfl⟩

end TxLookup

end GoQuai.TxPool
