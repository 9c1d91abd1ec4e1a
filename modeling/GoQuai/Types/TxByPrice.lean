import GoQuai.Lib.HeapOrder
import Mathlib.Data.List.AList

/-! # Transactions by price and nonce, core/types/transaction.go

`TransactionsByPriceAndNonce` hands the miner one transaction at a time, the
first of `heads`. `heads` holds the next transaction of each account, wrapped
with its miner fee, and `txs` holds the rest of each account's list. `Shift`
replaces the first head with the next transaction of its account, and `Pop`
drops it with nothing after it.

The signer and the base fee enter only through `Sender` and `EffectiveGasTip`,
so the functions take these as `sender` and `effectiveGasTip` (`none` where Go
returns an error). The first-seen `time` of a transaction is an integer. The
map is an `AList` on addresses, and its `range` visits the entries in an order
the runtime picks: `new` takes that order. Go reads `accTxs[0]` of an empty list
and `t.heads[0]` of no heads, and both panic: `none` here.

With `sort`, `heads` is a heap for `TxByPriceAndTime.Less`. Without it, `heads`
stays in the map's order, and `Pop` still runs `heap.Pop` on it, which hands
back the first entry of any slice (`pop_first`).

`Tracks` is the invariant. Each head is the next transaction of its account's
list, the rest of that list waits in `txs`, and the transactions handed out
before are that list up to the head. The constructor has it (`new_tracks`), and
`Shift` and `Pop` keep it when the first head is handed out (`Tracks.shift`,
`Tracks.pop`).
-/

namespace GoQuai.Types

open GoQuai.Heap

/-- `TxWithMinerFee`. -/
structure TxWithMinerFee (τ : Type) where
  tx : τ
  minerFee : ℤ

variable {α τ : Type}

/-- `NewTxWithMinerFee`: the effective miner tip, or the error of `EffectiveGasTip`. -/
def newTxWithMinerFee (effectiveGasTip : τ → Option ℤ) (tx : τ) : Option (TxWithMinerFee τ) :=
  (effectiveGasTip tx).map fun minerFee => ⟨tx, minerFee⟩

namespace TxByPriceAndTime

/-- `Less`: the higher fee first and, at equal fees, the transaction seen first. -/
def Less (time : τ → ℤ) (a b : TxWithMinerFee τ) : Prop :=
  if a.minerFee = b.minerFee then time a.tx < time b.tx else b.minerFee < a.minerFee

instance (time : τ → ℤ) : DecidableRel (Less time) := fun a b =>
  inferInstanceAs (Decidable (if a.minerFee = b.minerFee then time a.tx < time b.tx else b.minerFee < a.minerFee))

theorem less_iff {time : τ → ℤ} {a b : TxWithMinerFee τ} :
    Less time a b ↔ b.minerFee < a.minerFee ∨ a.minerFee = b.minerFee ∧ time a.tx < time b.tx := by
  by_cases h : a.minerFee = b.minerFee
  · simp [Less, h]
  · simp [Less, h]

-- `Less` is the lexicographic order on (fee downwards, time upwards), so `heap` applies
instance (time : τ → ℤ) : Std.Asymm (Less time) where
  asymm a b hab hba := by
    rw [less_iff] at hab hba
    omega

instance (time : τ → ℤ) : IsOrderConnected (TxWithMinerFee τ) (Less time) where
  conn a b c hac := by
    simp only [less_iff] at hac ⊢
    omega

end TxByPriceAndTime

/-- `TxByPriceAndTime` as a `heap.Interface`. -/
def txByPriceAndTime (time : τ → ℤ) : Interface (List (TxWithMinerFee τ)) (TxWithMinerFee τ) :=
  listInterface (TxByPriceAndTime.Less time)

/-- `TransactionsByPriceAndNonce`. -/
structure TransactionsByPriceAndNonce (α τ : Type) where
  txs : AList fun _ : α => List τ
  heads : List (TxWithMinerFee τ)

section Maps

variable [DecidableEq α]

/-- Go's `txs[a]`: nil when the map has no entry for `a`. -/
def accountTxs (txs : AList fun _ : α => List τ) (a : α) : List τ := (txs.lookup a).getD []

/-- The number of transactions in the lists of `txs`. -/
def txCount (txs : AList fun _ : α => List τ) : ℕ := (txs.entries.flatMap fun e => e.2).length

/-- Every list of `txs` holds transactions of the account it is filed under. -/
def PerAccount (sender : τ → α) (txs : AList fun _ : α => List τ) : Prop :=
  ∀ a, ∀ tx ∈ accountTxs txs a, sender tx = a

end Maps

namespace TransactionsByPriceAndNonce

/-- `Peek`. -/
def peek (t : TransactionsByPriceAndNonce α τ) : Option τ := t.heads[0]?.map (·.tx)

theorem peek_eq_some {t : TransactionsByPriceAndNonce α τ} {tx : τ} :
    t.peek = some tx ↔ ∃ h₀ rest, t.heads = h₀ :: rest ∧ h₀.tx = tx := by
  cases h : t.heads with
  | nil => simp [peek, h]
  | cons h₀ rest => simp [peek, h]

variable [DecidableEq α]

section Calls

variable (sender : τ → α) (effectiveGasTip : τ → Option ℤ) (time : τ → ℤ)

/-- The `range` of `NewTransactionsByPriceAndNonce` over the entries of `txs`,
in the order it visits them. -/
def newLoop : List (Σ _ : α, List τ) → (AList fun _ : α => List τ) → List (TxWithMinerFee τ) →
    Option ((AList fun _ : α => List τ) × List (TxWithMinerFee τ))
  | [], txs, heads => some (txs, heads)
  | ⟨addr, accTxs⟩ :: order, txs, heads =>
      match accTxs with
      | [] => none
      | tx :: rest =>
          match newTxWithMinerFee effectiveGasTip tx with
          | some wrapped =>
              if sender tx = addr then newLoop order (txs.insert addr rest) (heads ++ [wrapped])
              else newLoop order (txs.erase addr) heads
          | none => newLoop order (txs.erase addr) heads

/-- `NewTransactionsByPriceAndNonce`; `order` lists the entries of `txs` as the
`range` visits them. -/
def new (txs : AList fun _ : α => List τ) (sort : Bool) (order : List (Σ _ : α, List τ)) :
    Option (TransactionsByPriceAndNonce α τ) :=
  (newLoop sender effectiveGasTip order txs []).bind fun (txs, heads) =>
    if sort then (Heap.init (txByPriceAndTime time) heads).map fun heads => ⟨txs, heads⟩
    else some ⟨txs, heads⟩

/-- `Pop`. -/
def pop (t : TransactionsByPriceAndNonce α τ) : Option (TransactionsByPriceAndNonce α τ) :=
  (Heap.pop (txByPriceAndTime time) t.heads).map fun (_, heads) => { t with heads }

/-- The end of `Shift` when the account has no next transaction to wrap. -/
def dropHead (sort : Bool) (t : TransactionsByPriceAndNonce α τ) : Option (TransactionsByPriceAndNonce α τ) :=
  if sort then pop time t
  else if 1 < t.heads.length then some { t with heads := t.heads.tail }
  else some { t with heads := [] }

/-- `Shift`. -/
def shift (acc : α) (sort : Bool) (t : TransactionsByPriceAndNonce α τ) :
    Option (TransactionsByPriceAndNonce α τ) :=
  match t.txs.lookup acc with
  | some (tx :: rest) =>
      match newTxWithMinerFee effectiveGasTip tx with
      | some wrapped =>
          if t.heads = [] then none
          else
            let heads := t.heads.set 0 wrapped
            let txs := t.txs.insert acc rest
            if sort then (Heap.fix (txByPriceAndTime time) heads 0).map fun heads => ⟨txs, heads⟩
            else some ⟨txs, heads⟩
      | none => dropHead time sort t
  | _ => dropHead time sort t

/-- The accounts of the heads. -/
def accounts (t : TransactionsByPriceAndNonce α τ) : List α := t.heads.map fun h => sender h.tx

/-- The head `h` is the `k`-th transaction of its account's list in `txs₀`, the
transactions after it wait in `txs`, and `handed` holds those before it. -/
def HeadAt (txs₀ txs : AList fun _ : α => List τ) (handed : List τ) (h : TxWithMinerFee τ) : Prop :=
  ∃ k, (accountTxs txs₀ (sender h.tx))[k]? = some h.tx ∧
    txs.lookup (sender h.tx) = some ((accountTxs txs₀ (sender h.tx)).drop (k + 1)) ∧
    handed.filter (fun tx => sender tx = sender h.tx) = (accountTxs txs₀ (sender h.tx)).take k

/-- The set `t` after the transactions `handed` were handed out of the one the
constructor made from `txs₀`. -/
structure Tracks (sort : Bool) (txs₀ : AList fun _ : α => List τ) (t : TransactionsByPriceAndNonce α τ)
    (handed : List τ) : Prop where
  nodup : (t.accounts sender).Nodup
  head : ∀ h ∈ t.heads, HeadAt sender txs₀ t.txs handed h
  fee : ∀ h ∈ t.heads, effectiveGasTip h.tx = some h.minerFee
  handed : ∀ a, handed.filter (fun tx => sender tx = a) <+: accountTxs txs₀ a
  heap : sort = true → IsHeap (TxByPriceAndTime.Less time) t.heads

end Calls

variable {sender : τ → α} {effectiveGasTip : τ → Option ℤ} {time : τ → ℤ}

/-! ## The spec of each function -/

theorem newLoop_eq_none_iff : ∀ (order : List (Σ _ : α, List τ)) (txs : AList fun _ : α => List τ)
    (heads : List (TxWithMinerFee τ)),
    newLoop sender effectiveGasTip order txs heads = none ↔ ∃ e ∈ order, e.2 = []
  | [], _, _ => by simp [newLoop]
  | ⟨_, []⟩ :: _, _, _ => by simp [newLoop]
  | ⟨addr, tx :: rest⟩ :: order, txs, heads => by
      have hrest : (∃ e ∈ (⟨addr, tx :: rest⟩ :: order : List (Σ _ : α, List τ)), e.2 = []) ↔
          ∃ e ∈ order, e.2 = [] := by simp
      rw [hrest, newLoop]
      -- every branch goes on with the rest of the entries
      split
      · split_ifs
        · exact newLoop_eq_none_iff order _ _
        · exact newLoop_eq_none_iff order _ _
      · exact newLoop_eq_none_iff order _ _

theorem shift_of_next {acc : α} {sort : Bool} {t : TransactionsByPriceAndNonce α τ} {tx : τ} {rest : List τ}
    {wrapped : TxWithMinerFee τ} (hl : t.txs.lookup acc = some (tx :: rest))
    (hw : newTxWithMinerFee effectiveGasTip tx = some wrapped) (hh : t.heads ≠ []) :
    shift effectiveGasTip time acc sort t =
      if sort then (Heap.fix (txByPriceAndTime time) (t.heads.set 0 wrapped) 0).map
        fun heads => ⟨t.txs.insert acc rest, heads⟩
      else some ⟨t.txs.insert acc rest, t.heads.set 0 wrapped⟩ := by
  simp only [shift, hl, hw, if_neg hh]

theorem shift_of_no_next {acc : α} {sort : Bool} {t : TransactionsByPriceAndNonce α τ}
    (h : ∀ tx rest, t.txs.lookup acc = some (tx :: rest) → newTxWithMinerFee effectiveGasTip tx = none) :
    shift effectiveGasTip time acc sort t = dropHead time sort t := by
  unfold shift
  split
  · rename_i tx rest hl
    rw [h tx rest hl]
  · rfl

/-! ## Handing out the first head -/

section Tracks

variable {sort : Bool} {txs₀ : AList fun _ : α => List τ} {t : TransactionsByPriceAndNonce α τ}
  {handed : List τ}

theorem filter_handOut_of_ne {x : τ} {a : α} (hx : sender x ≠ a) :
    (handed ++ [x]).filter (fun tx => sender tx = a) = handed.filter (fun tx => sender tx = a) := by
  simp [List.filter_append, hx]

theorem filter_handOut_self {l : List τ} {x : τ} {k : ℕ}
    (hf : handed.filter (fun tx => sender tx = sender x) = l.take k) (hx : l[k]? = some x) :
    (handed ++ [x]).filter (fun tx => sender tx = sender x) = l.take (k + 1) := by
  rw [List.filter_append, hf, List.take_add_one, hx]
  simp

theorem HeadAt.lookup_congr {txs txs' : AList fun _ : α => List τ} {h : TxWithMinerFee τ}
    (hd : HeadAt sender txs₀ txs handed h) (hl : txs'.lookup (sender h.tx) = txs.lookup (sender h.tx)) :
    HeadAt sender txs₀ txs' handed h := by
  obtain ⟨k, hk, hrest, hf⟩ := hd
  exact ⟨k, hk, hl.trans hrest, hf⟩

theorem HeadAt.handOut {txs txs' : AList fun _ : α => List τ} {h : TxWithMinerFee τ} {x : τ}
    (hd : HeadAt sender txs₀ txs handed h) (hx : sender x ≠ sender h.tx)
    (hl : txs'.lookup (sender h.tx) = txs.lookup (sender h.tx)) :
    HeadAt sender txs₀ txs' (handed ++ [x]) h := by
  obtain ⟨k, hk, hrest, hf⟩ := hd.lookup_congr hl
  exact ⟨k, hk, hrest, (filter_handOut_of_ne hx).trans hf⟩

/-- The same heads in another order. -/
theorem Tracks.perm {sort' : Bool} (ht : Tracks sender effectiveGasTip time sort' txs₀ t handed)
    {heads : List (TxWithMinerFee τ)} (hperm : heads.Perm t.heads)
    (hheap : sort = true → IsHeap (TxByPriceAndTime.Less time) heads) :
    Tracks sender effectiveGasTip time sort txs₀ { t with heads } handed :=
  ⟨(hperm.map _).nodup_iff.mpr ht.nodup, fun h hm => ht.head h (hperm.subset hm),
    fun h hm => ht.fee h (hperm.subset hm), ht.handed, hheap⟩

variable {h₀ : TxWithMinerFee τ} {rest : List (TxWithMinerFee τ)}

theorem Tracks.nodup_cons (ht : Tracks sender effectiveGasTip time sort txs₀ t handed) (hh : t.heads = h₀ :: rest) :
    sender h₀.tx ∉ rest.map (fun h => sender h.tx) ∧ (rest.map fun h => sender h.tx).Nodup := by
  have hnd := ht.nodup
  rw [accounts, hh, List.map_cons, List.nodup_cons] at hnd
  exact hnd

theorem Tracks.headAt_first (ht : Tracks sender effectiveGasTip time sort txs₀ t handed) (hh : t.heads = h₀ :: rest) :
    HeadAt sender txs₀ t.txs handed h₀ :=
  ht.head h₀ (by rw [hh]; exact List.mem_cons_self)

/-- Handing out the first head keeps every account's transactions handed out a
prefix of its list. -/
theorem Tracks.handed_handOut (ht : Tracks sender effectiveGasTip time sort txs₀ t handed)
    (hh : t.heads = h₀ :: rest) (a : α) :
    (handed ++ [h₀.tx]).filter (fun tx => sender tx = a) <+: accountTxs txs₀ a := by
  by_cases ha : sender h₀.tx = a
  · subst ha
    obtain ⟨k, hk, -, hf⟩ := ht.headAt_first hh
    rw [filter_handOut_self hf hk]
    exact List.take_prefix _ _
  · rw [filter_handOut_of_ne ha]
    exact ht.handed a

/-- The first head handed out and removed, the others in any order. -/
theorem Tracks.dropFirst (ht : Tracks sender effectiveGasTip time sort txs₀ t handed) (hh : t.heads = h₀ :: rest)
    {heads : List (TxWithMinerFee τ)} (hperm : heads.Perm rest)
    (hheap : sort = true → IsHeap (TxByPriceAndTime.Less time) heads) :
    Tracks sender effectiveGasTip time sort txs₀ { t with heads } (handed ++ [h₀.tx]) := by
  obtain ⟨hfirst, hnd⟩ := ht.nodup_cons hh
  have hmem : ∀ h ∈ heads, h ∈ t.heads := fun h hm => by
    rw [hh]
    exact List.mem_cons_of_mem _ (hperm.subset hm)
  have hne : ∀ h ∈ heads, sender h₀.tx ≠ sender h.tx := fun h hm heq =>
    hfirst (heq ▸ List.mem_map_of_mem (hperm.subset hm))
  refine ⟨(hperm.map _).nodup_iff.mpr hnd, fun h hm => (ht.head h (hmem h hm)).handOut (hne h hm) rfl,
    fun h hm => ht.fee h (hmem h hm), ht.handed_handOut hh, hheap⟩

/-- The transaction waiting after the first head is the next entry of its
account's list, and of that account. -/
theorem Tracks.next (hpa : PerAccount sender txs₀) (ht : Tracks sender effectiveGasTip time sort txs₀ t handed)
    (hh : t.heads = h₀ :: rest) {tx : τ} {more : List τ} (hl : t.txs.lookup (sender h₀.tx) = some (tx :: more)) :
    ∃ k, (accountTxs txs₀ (sender h₀.tx))[k]? = some h₀.tx ∧
      (accountTxs txs₀ (sender h₀.tx))[k + 1]? = some tx ∧
      (accountTxs txs₀ (sender h₀.tx)).drop (k + 1 + 1) = more ∧
      handed.filter (fun tx => sender tx = sender h₀.tx) = (accountTxs txs₀ (sender h₀.tx)).take k ∧
      sender tx = sender h₀.tx := by
  obtain ⟨k, hk, hrest, hf⟩ := ht.headAt_first hh
  have hdrop : (accountTxs txs₀ (sender h₀.tx)).drop (k + 1) = tx :: more :=
    Option.some_inj.mp (hrest.symm.trans hl)
  have hk₁ : (accountTxs txs₀ (sender h₀.tx))[k + 1]? = some tx := by
    have h0 := congrArg (fun l : List τ => l[0]?) hdrop
    simpa [List.getElem?_drop] using h0
  have hmore : (accountTxs txs₀ (sender h₀.tx)).drop (k + 1 + 1) = more := by
    rw [← List.drop_drop, hdrop]
    rfl
  exact ⟨k, hk, hk₁, hmore, hf, hpa _ tx (List.mem_of_getElem? hk₁)⟩

/-- The first head handed out and replaced by the next transaction `tx` of its
account, the heads then in any order. -/
theorem Tracks.replaceFirst (hpa : PerAccount sender txs₀) (ht : Tracks sender effectiveGasTip time sort txs₀ t handed)
    (hh : t.heads = h₀ :: rest) {tx : τ} {more : List τ} {fee : ℤ}
    (hl : t.txs.lookup (sender h₀.tx) = some (tx :: more)) (hfee : effectiveGasTip tx = some fee)
    {heads : List (TxWithMinerFee τ)} (hperm : heads.Perm (⟨tx, fee⟩ :: rest))
    (hheap : sort = true → IsHeap (TxByPriceAndTime.Less time) heads) :
    Tracks sender effectiveGasTip time sort txs₀ ⟨t.txs.insert (sender h₀.tx) more, heads⟩ (handed ++ [h₀.tx]) ∧
      (heads.map fun h => sender h.tx).Perm (t.accounts sender) := by
  obtain ⟨k, hk, hk₁, hmore, hf, hsender⟩ := ht.next hpa hh hl
  obtain ⟨hfirst, hnd⟩ := ht.nodup_cons hh
  have hmem : ∀ h ∈ heads, h = ⟨tx, fee⟩ ∨ h ∈ rest := fun h hm => List.mem_cons.mp (hperm.subset hm)
  -- the new head takes the old one's account
  have hacc : (heads.map fun h => sender h.tx).Perm (t.accounts sender) := by
    have h := hperm.map fun h : TxWithMinerFee τ => sender h.tx
    rw [List.map_cons, hsender] at h
    rwa [accounts, hh, List.map_cons]
  refine ⟨⟨hacc.nodup_iff.mpr ht.nodup, fun h hm => ?_, fun h hm => ?_, ht.handed_handOut hh, hheap⟩, hacc⟩
  · rcases hmem h hm with rfl | hr
    · refine ⟨k + 1, ?_, ?_, ?_⟩ <;> dsimp only <;> rw [hsender]
      · exact hk₁
      · rw [AList.lookup_insert, hmore]
      · exact filter_handOut_self hf hk
    · have hne : sender h₀.tx ≠ sender h.tx := fun heq => hfirst (heq ▸ List.mem_map_of_mem hr)
      have hmem' : h ∈ t.heads := by
        rw [hh]
        exact List.mem_cons_of_mem _ hr
      exact (ht.head h hmem').handOut hne (AList.lookup_insert_ne (Ne.symm hne))
  · rcases hmem h hm with rfl | hr
    · exact hfee
    · exact ht.fee h (by rw [hh]; exact List.mem_cons_of_mem _ hr)

/-- `Pop` on the heads hands back the first, from a heap or from any slice. -/
theorem Tracks.popHeads (ht : Tracks sender effectiveGasTip time sort txs₀ t handed) (hh : t.heads = h₀ :: rest) :
    ∃ heads, Heap.pop (txByPriceAndTime time) t.heads = some (h₀, heads) ∧ heads.Perm rest ∧
      (sort = true → IsHeap (TxByPriceAndTime.Less time) heads) := by
  obtain ⟨heads, hpop, hperm⟩ := pop_first (r := TxByPriceAndTime.Less time) (L := t.heads) (x := h₀)
    (by rw [hh]; rfl)
  refine ⟨heads, hpop, (by rw [hh] at hperm; exact hperm.cons_inv), fun hs => ?_⟩
  obtain ⟨x, heads', hpop', -, -, -, hheap⟩ := pop_spec (ht.heap hs) (by rw [hh]; exact List.cons_ne_nil _ _)
  rw [hpop] at hpop'
  cases hpop'
  exact hheap

theorem Tracks.pop (ht : Tracks sender effectiveGasTip time sort txs₀ t handed) (hh : t.heads = h₀ :: rest) :
    ∃ t', pop time t = some t' ∧ Tracks sender effectiveGasTip time sort txs₀ t' (handed ++ [h₀.tx]) ∧
      (t'.accounts sender).Perm (rest.map fun h => sender h.tx) := by
  obtain ⟨heads, hpop, hperm, hheap⟩ := ht.popHeads hh
  refine ⟨{ t with heads }, by simp [TransactionsByPriceAndNonce.pop, hpop], ht.dropFirst hh hperm hheap, hperm.map _⟩

theorem Tracks.dropHead (ht : Tracks sender effectiveGasTip time sort txs₀ t handed) (hh : t.heads = h₀ :: rest) :
    ∃ heads, dropHead time sort t = some { t with heads } ∧ heads.Perm rest ∧
      (sort = true → IsHeap (TxByPriceAndTime.Less time) heads) := by
  cases sort with
  | true =>
      obtain ⟨heads, hpop, hperm, hheap⟩ := ht.popHeads hh
      exact ⟨heads, by simp [TransactionsByPriceAndNonce.dropHead, TransactionsByPriceAndNonce.pop, hpop],
        hperm, hheap⟩
  | false =>
      -- without sorting the rest of the heads stays, as a slice or as a new empty one
      refine ⟨rest, ?_, List.Perm.refl rest, nofun⟩
      cases rest with
      | nil => simp [TransactionsByPriceAndNonce.dropHead, hh]
      | cons h rest => simp [TransactionsByPriceAndNonce.dropHead, hh]

theorem Tracks.shift (hpa : PerAccount sender txs₀) (ht : Tracks sender effectiveGasTip time sort txs₀ t handed)
    (hh : t.heads = h₀ :: rest) :
    ∃ t', shift effectiveGasTip time (sender h₀.tx) sort t = some t' ∧
      Tracks sender effectiveGasTip time sort txs₀ t' (handed ++ [h₀.tx]) ∧ t'.accounts sender ⊆ t.accounts sender := by
  -- either the account's next transaction has a fee and replaces the head, or the head is dropped
  by_cases hnext : ∃ tx more fee, t.txs.lookup (sender h₀.tx) = some (tx :: more) ∧ effectiveGasTip tx = some fee
  · obtain ⟨tx, more, fee, hl, hfee⟩ := hnext
    have hset : t.heads.set 0 ⟨tx, fee⟩ = ⟨tx, fee⟩ :: rest := by rw [hh]; rfl
    have hw : newTxWithMinerFee effectiveGasTip tx = some ⟨tx, fee⟩ := by simp [newTxWithMinerFee, hfee]
    rw [shift_of_next hl hw (by simp [hh])]
    cases hs : sort
    · have hperm : (t.heads.set 0 ⟨tx, fee⟩).Perm (⟨tx, fee⟩ :: rest) := by rw [hset]
      obtain ⟨ht', hacc⟩ := ht.replaceFirst hpa hh hl hfee hperm (by simp [hs])
      exact ⟨⟨t.txs.insert (sender h₀.tx) more, t.heads.set 0 ⟨tx, fee⟩⟩, rfl, hs ▸ ht', hacc.subset⟩
    · -- `Fix` at the replaced root makes a heap again
      have o := (ht.heap hs).downOrder_set (i := 0) (by simp [hh]) ⟨tx, fee⟩
      rw [← List.length_set (a := ⟨tx, fee⟩)] at o
      obtain ⟨heads, hfix, hperm, hheap⟩ := fix_spec o (by simp [hh])
      rw [hset] at hperm
      obtain ⟨ht', hacc⟩ := ht.replaceFirst hpa hh hl hfee hperm (fun _ => hheap)
      refine ⟨⟨t.txs.insert (sender h₀.tx) more, heads⟩, ?_, hs ▸ ht', hacc.subset⟩
      simp only [if_true]
      exact congrArg (Option.map _) hfix
  · rw [shift_of_no_next (fun tx more hl => by
      cases hw : effectiveGasTip tx with
      | none => simp [newTxWithMinerFee, hw]
      | some fee => exact absurd ⟨tx, more, fee, hl, hw⟩ hnext)]
    obtain ⟨heads, hdrop, hperm, hheap⟩ := ht.dropHead hh
    refine ⟨{ t with heads }, hdrop, ht.dropFirst hh hperm hheap, fun a ha => ?_⟩
    rw [accounts, hh, List.map_cons]
    exact List.mem_cons_of_mem _ ((hperm.map _).subset ha)

end Tracks

/-! ## The constructor -/

section New

variable {txs₀ txs : AList fun _ : α => List τ} {heads : List (TxWithMinerFee τ)}

/-- A visited account whose first transaction becomes its head. -/
theorem Tracks.append (ht : Tracks sender effectiveGasTip time false txs₀ ⟨txs, heads⟩ [])
    {addr : α} {tx : τ} {rest : List τ} {fee : ℤ} (h₀ : txs₀.lookup addr = some (tx :: rest))
    (hs : sender tx = addr) (hfee : effectiveGasTip tx = some fee) (hnew : addr ∉ heads.map fun h => sender h.tx) :
    Tracks sender effectiveGasTip time false txs₀ ⟨txs.insert addr rest, heads ++ [⟨tx, fee⟩]⟩ [] := by
  have hacc : accountTxs txs₀ addr = tx :: rest := by simp [accountTxs, h₀]
  refine ⟨?_, fun h hm => ?_, fun h hm => ?_, fun a => by simp, nofun⟩
  · have hperm := List.perm_append_singleton addr (heads.map fun h => sender h.tx)
    show ((heads ++ [(⟨tx, fee⟩ : TxWithMinerFee τ)]).map fun h => sender h.tx).Nodup
    rw [List.map_append, List.map_singleton]
    dsimp only
    rw [hs, hperm.nodup_iff, List.nodup_cons]
    exact ⟨hnew, ht.nodup⟩
  · rcases List.mem_append.mp hm with hm | hm
    · have hne : sender h.tx ≠ addr := fun heq => hnew (heq ▸ List.mem_map_of_mem hm)
      exact (ht.head h hm).lookup_congr (AList.lookup_insert_ne hne)
    · rw [List.mem_singleton] at hm
      subst hm
      refine ⟨0, ?_, ?_, ?_⟩ <;> dsimp only <;> rw [hs, hacc]
      · rfl
      · rw [AList.lookup_insert]
        rfl
      · rfl
  · rcases List.mem_append.mp hm with hm | hm
    · exact ht.fee h hm
    · rw [List.mem_singleton] at hm
      subst hm
      exact hfee

/-- A visited account that is deleted. -/
theorem Tracks.erase (ht : Tracks sender effectiveGasTip time false txs₀ ⟨txs, heads⟩ []) {addr : α}
    (hnew : addr ∉ heads.map fun h => sender h.tx) :
    Tracks sender effectiveGasTip time false txs₀ ⟨txs.erase addr, heads⟩ [] := by
  refine ⟨ht.nodup, fun h hm => ?_, ht.fee, ht.handed, nofun⟩
  have hne : sender h.tx ≠ addr := fun heq => hnew (heq ▸ List.mem_map_of_mem hm)
  exact (ht.head h hm).lookup_congr (AList.lookup_erase_ne hne)

/-- The `range` of the constructor: each account visited so far has its first
transaction as its head or is deleted, and the accounts still to visit are as
they were. -/
theorem newLoop_tracks (hpa : PerAccount sender txs₀) : ∀ (order : List (Σ _ : α, List τ))
    (txs : AList fun _ : α => List τ) (heads : List (TxWithMinerFee τ))
    {r : (AList fun _ : α => List τ) × List (TxWithMinerFee τ)}, (order.map Sigma.fst).Nodup →
    (∀ e ∈ order, txs₀.lookup e.1 = some e.2 ∧ txs.lookup e.1 = some e.2 ∧ e.1 ∉ heads.map fun h => sender h.tx) →
    Tracks sender effectiveGasTip time false txs₀ ⟨txs, heads⟩ [] →
    newLoop sender effectiveGasTip order txs heads = some r →
    Tracks sender effectiveGasTip time false txs₀ ⟨r.1, r.2⟩ []
  | [], txs, heads, r, _, _, ht, hr => by
      simp only [newLoop, Option.some.injEq] at hr
      subst hr
      exact ht
  | ⟨_, []⟩ :: _, _, _, _, _, _, _, hr => by simp [newLoop] at hr
  | ⟨addr, tx :: rest⟩ :: order, txs, heads, r, hnd, hord, ht, hr => by
      rw [List.map_cons, List.nodup_cons] at hnd
      obtain ⟨h₀, -, hnew⟩ := hord _ List.mem_cons_self
      -- the entries after this one have other keys, which the step leaves alone
      have hne : ∀ e ∈ order, e.1 ≠ addr := fun e he heq => hnd.1 (by
        have hmem := List.mem_map_of_mem (f := Sigma.fst) he
        rwa [heq] at hmem)
      have hord' : ∀ e ∈ order, txs₀.lookup e.1 = some e.2 ∧ txs.lookup e.1 = some e.2 ∧
          e.1 ∉ heads.map fun h => sender h.tx := fun e he => hord e (List.mem_cons_of_mem _ he)
      have herase : ∀ e ∈ order, txs₀.lookup e.1 = some e.2 ∧ (txs.erase addr).lookup e.1 = some e.2 ∧
          e.1 ∉ heads.map fun h => sender h.tx := fun e he => by
        obtain ⟨h₁, h₂, h₃⟩ := hord' e he
        exact ⟨h₁, (AList.lookup_erase_ne (hne e he)).trans h₂, h₃⟩
      simp only [newLoop] at hr
      split at hr
      · rename_i wrapped hw
        obtain ⟨fee, hfee, rfl⟩ := Option.map_eq_some_iff.mp hw
        split_ifs at hr with hs
        · refine newLoop_tracks hpa order _ _ hnd.2 (fun e he => ?_) (ht.append h₀ hs hfee hnew) hr
          obtain ⟨h₁, h₂, h₃⟩ := hord' e he
          refine ⟨h₁, (AList.lookup_insert_ne (hne e he)).trans h₂, ?_⟩
          rw [List.map_append, List.mem_append, List.map_singleton, List.mem_singleton, not_or]
          exact ⟨h₃, hs ▸ hne e he⟩
        · exact newLoop_tracks hpa order _ _ hnd.2 herase (ht.erase hnew) hr
      · exact newLoop_tracks hpa order _ _ hnd.2 herase (ht.erase hnew) hr

variable {order : List (Σ _ : α, List τ)}

/-- The set `NewTransactionsByPriceAndNonce` builds, over any order of the
`range`, holds the first transaction of each account as its head. -/
theorem new_tracks (hpa : PerAccount sender txs₀) (horder : order.Perm txs₀.entries) {sort : Bool}
    {t : TransactionsByPriceAndNonce α τ} (hnew : new sender effectiveGasTip time txs₀ sort order = some t) :
    Tracks sender effectiveGasTip time sort txs₀ t [] := by
  obtain ⟨⟨txs, heads⟩, hloop, hnew⟩ := Option.bind_eq_some_iff.mp hnew
  have hnd : (order.map Sigma.fst).Nodup := (horder.map Sigma.fst).nodup_iff.mpr txs₀.nodupKeys
  have ht : Tracks sender effectiveGasTip time false txs₀ ⟨txs, heads⟩ [] := newLoop_tracks hpa order txs₀ [] hnd
    (fun e he => ⟨AList.mem_lookup_iff.mpr (horder.subset he), AList.mem_lookup_iff.mpr (horder.subset he),
      List.not_mem_nil⟩)
    ⟨List.nodup_nil, nofun, nofun, fun _ => List.nil_prefix, nofun⟩ hloop
  cases sort with
  | false =>
      cases hnew
      exact ht
  | true =>
      -- `heap.Init` puts the heads in heap order
      obtain ⟨heads', hinit, hperm, hheap⟩ := init_spec (r := TxByPriceAndTime.Less time) heads
      have hinit' : Heap.init (txByPriceAndTime time) heads = some heads' := hinit
      simp only [if_true, hinit', Option.map_some, Option.some.injEq] at hnew
      subst hnew
      exact ht.perm hperm (fun _ => hheap)

/-- The constructor panics exactly when some account's list is empty. -/
theorem new_eq_none_iff (horder : order.Perm txs₀.entries) {sort : Bool} :
    new sender effectiveGasTip time txs₀ sort order = none ↔ ∃ a, txs₀.lookup a = some [] := by
  have hloop : newLoop sender effectiveGasTip order txs₀ [] = none ↔ ∃ a, txs₀.lookup a = some [] := by
    rw [newLoop_eq_none_iff]
    constructor
    · rintro ⟨⟨a, l⟩, he, rfl⟩
      exact ⟨a, AList.mem_lookup_iff.mpr (horder.subset he)⟩
    · rintro ⟨a, ha⟩
      exact ⟨⟨a, []⟩, horder.symm.subset (AList.mem_lookup_iff.mp ha), rfl⟩
  rw [← hloop]
  cases h : newLoop sender effectiveGasTip order txs₀ [] with
  | none => simp [new, h]
  | some r =>
      obtain ⟨heads', hinit, -⟩ := init_spec (r := TxByPriceAndTime.Less time) r.2
      have hinit' : Heap.init (txByPriceAndTime time) r.2 = some heads' := hinit
      cases sort <;> simp [new, h, hinit']

end New

/-! ## What the invariant gives -/

section Handed

variable {sort : Bool} {txs₀ : AList fun _ : α => List τ} {t : TransactionsByPriceAndNonce α τ}
  {handed : List τ}

theorem accountTxs_sublist (txs : AList fun _ : α => List τ) (a : α) :
    List.Sublist (accountTxs txs a) (txs.entries.flatMap fun e => e.2) := by
  cases h : txs.lookup a with
  | none => simp [accountTxs, h]
  | some l =>
      rw [accountTxs, h, Option.getD_some, List.flatMap_def]
      exact List.sublist_flatten_of_mem (List.mem_map_of_mem (f := fun e : Σ _ : α, List τ => e.2)
        (AList.mem_lookup_iff.mp h))

/-- A transaction is handed out at most as often as its account's list holds it. -/
theorem Tracks.count_le [DecidableEq τ] (ht : Tracks sender effectiveGasTip time sort txs₀ t handed) (x : τ) :
    handed.count x ≤ (accountTxs txs₀ (sender x)).count x := by
  rw [← List.count_filter (p := fun tx => decide (sender tx = sender x)) (by simp)]
  exact (ht.handed (sender x)).sublist.count_le x

theorem Tracks.nodup_handed (ht : Tracks sender effectiveGasTip time sort txs₀ t handed)
    (hnd : ∀ a, (accountTxs txs₀ a).Nodup) : handed.Nodup := by
  classical
  rw [List.nodup_iff_count_le_one]
  intro x
  exact (ht.count_le x).trans (List.nodup_iff_count_le_one.mp (hnd (sender x)) x)

/-- No more transactions are handed out than the map holds. -/
theorem Tracks.length_le (ht : Tracks sender effectiveGasTip time sort txs₀ t handed) :
    handed.length ≤ txCount txs₀ := by
  classical
  have hsub : List.Subperm handed (txs₀.entries.flatMap fun e => e.2) := by
    rw [List.subperm_ext_iff]
    intro x _
    calc handed.count x ≤ (accountTxs txs₀ (sender x)).count x := ht.count_le x
      _ ≤ _ := (accountTxs_sublist txs₀ (sender x)).count_le x
  exact hsub.length_le

/-- With sorting, the first head has the highest effective tip among the heads,
and of those with that tip, the earliest time. -/
theorem Tracks.first_best (ht : Tracks sender effectiveGasTip time true txs₀ t handed)
    {h₀ : TxWithMinerFee τ} {rest : List (TxWithMinerFee τ)} (hh : t.heads = h₀ :: rest) :
    ∀ h ∈ t.heads, h.minerFee < h₀.minerFee ∨ h.minerFee = h₀.minerFee ∧ time h₀.tx ≤ time h.tx := by
  intro h hm
  have hnot := (ht.heap rfl).not_before_first (by rw [hh]; rfl) h hm
  rw [TxByPriceAndTime.less_iff] at hnot
  omega

end Handed

end TransactionsByPriceAndNonce

end GoQuai.Types
