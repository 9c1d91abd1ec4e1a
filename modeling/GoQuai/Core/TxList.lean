import GoQuai.Lib.HeapOrder
import Mathlib.Data.List.AList

/-! # The nonce-sorted transaction map of core/tx_list.go

`txSortedMap` keeps the transactions of one account three ways: `items`, a
map from nonce to transaction; `index`, a `nonceHeap` of the same nonces,
least first; and `cache`, nil or the transactions sorted by nonce.

Go's map is Mathlib's `AList` on nonces. A `range` over a Go map visits the
entries in an order the runtime picks: the functions that range take that
order as an argument, and what is proved holds for every order that lists the
entries. `sort.Sort` is `List.mergeSort`; the nonces it sorts are distinct, so
any sort gives the same list. A `*Transaction` read at a missing nonce is nil,
`none` in the lists `Forward`, `Cap` and `Ready` return. Nonces are `uint64`:
`Ready` counts `next` one past the last nonce it removes, and that wraps only
after `2^64 - 1`, above which no nonce lies, so nonces are natural numbers here.
`Flatten` copies the list `flatten` returns, which a value model need not do.

`Inv` is the representation invariant: the heap holds each key of `items`
once, every transaction sits at its own nonce, and a cache lists the
transactions by strictly increasing nonce. `New` has it and every call keeps it
(`Reachable.inv`), with `filter` followed by `reheap` as one step.
-/

namespace GoQuai.TxList

open GoQuai.Heap

/-- `nonceHeap`: a slice of nonces, least first. -/
def nonceHeap : Interface (List ℕ) ℕ := listInterface (· < ·)

/-- `txSortedMap`. -/
structure TxSortedMap (τ : Type) where
  items : AList fun _ : ℕ => τ
  index : List ℕ
  cache : Option (List τ)

namespace TxSortedMap

variable {τ : Type}

/-- `newTxSortedMap`. -/
def new : TxSortedMap τ := ⟨∅, [], none⟩

/-- `Get`. -/
def get (m : TxSortedMap τ) (n : ℕ) : Option τ := m.items.lookup n

-- Generate the equation lemmas of these definitions once, here, rather than in
-- each of the proofs below that unfold them while they are elaborated in parallel.
section
attribute [local simp] get
end

/-- `Len`. -/
def len (m : TxSortedMap τ) : ℕ := m.items.keys.length

section Calls

variable (nonce : τ → ℕ)

/-- `Put`: a nonce not in `items` goes on the heap. -/
def put (tx : τ) (m : TxSortedMap τ) : Option (TxSortedMap τ) :=
  (if m.items.lookup (nonce tx) = none then Heap.push nonceHeap (nonce tx) m.index else some m.index).map
    fun index => ⟨m.items.insert (nonce tx) tx, index, none⟩

/-- The loop of `Forward`: pop the least nonce while it is below `threshold`. -/
def forwardLoop (threshold : ℕ) (items : AList fun _ : ℕ => τ) (index : List ℕ) (removed : List (Option τ)) :
    Option ((AList fun _ : ℕ => τ) × List ℕ × List (Option τ)) :=
  match index[0]? with
  | some least =>
      if least < threshold then
        match _h : Heap.pop nonceHeap index with
        | none => none
        | some (n, index') => forwardLoop threshold (items.erase n) index' (removed ++ [items.lookup n])
      else some (items, index, removed)
  | none => some (items, index, removed)
termination_by index.length
decreasing_by
  have := (perm_of_pop _h).length_eq
  simp only [List.length_cons] at this
  omega

/-- `Forward`: a cache loses as many entries at its front as were removed. -/
def forward (threshold : ℕ) (m : TxSortedMap τ) : Option (List (Option τ) × TxSortedMap τ) :=
  (forwardLoop threshold m.items m.index []).bind fun (items, index, removed) =>
    match m.cache with
    | none => some (removed, ⟨items, index, none⟩)
    | some c =>
        if removed.length ≤ c.length then some (removed, ⟨items, index, some (c.drop removed.length)⟩)
        else none

/-- `reheap`; `order` lists the keys of `items` as the `range` visits them. -/
def reheap (order : List ℕ) (m : TxSortedMap τ) : Option (TxSortedMap τ) :=
  (Heap.init nonceHeap order).map fun index => { m with index, cache := none }

/-- The loop of `filter` over the entries of `items`, as the `range` visits them. -/
def filterLoop (f : τ → Bool) : List (Σ _ : ℕ, τ) → (AList fun _ : ℕ => τ) → List τ →
    (AList fun _ : ℕ => τ) × List τ
  | [], items, removed => (items, removed)
  | ⟨n, tx⟩ :: rest, items, removed =>
      if f tx then filterLoop f rest (items.erase n) (removed ++ [tx]) else filterLoop f rest items removed

/-- `filter`: `Filter` without rebuilding the heap. -/
def filterNoReheap (f : τ → Bool) (order : List (Σ _ : ℕ, τ)) (m : TxSortedMap τ) : List τ × TxSortedMap τ :=
  let r := filterLoop f order m.items []
  (r.2, { m with items := r.1, cache := if 0 < r.2.length then none else m.cache })

/-- `Filter`; `order₂` lists the keys left as the `range` of `reheap` visits them. -/
def filter (f : τ → Bool) (order₁ : List (Σ _ : ℕ, τ)) (order₂ : List ℕ) (m : TxSortedMap τ) :
    Option (List τ × TxSortedMap τ) :=
  let r := m.filterNoReheap f order₁
  if 0 < r.1.length then (r.2.reheap order₂).map (r.1, ·) else some r

/-- The loop of `Cap` over the sorted nonces: drop the highest while `size` is
above `threshold`. -/
def capLoop (threshold : ℤ) (sorted : List ℕ) : ℕ → (AList fun _ : ℕ => τ) → List (Option τ) →
    Option ((AList fun _ : ℕ => τ) × List (Option τ))
  -- at size `0` above the threshold Go reads `(*m.index)[-1]`
  | 0, items, drops => if threshold < 0 then none else some (items, drops)
  | size + 1, items, drops =>
      if threshold < size + 1 then
        sorted[size]?.bind fun n => capLoop threshold sorted size (items.erase n) (drops ++ [items.lookup n])
      else some (items, drops)

/-- `Cap`: sort the heap, drop the highest nonces, keep the first `threshold`
and make them a heap again; a cache loses as many entries at its back. -/
def cap (threshold : ℤ) (m : TxSortedMap τ) : Option (List (Option τ) × TxSortedMap τ) :=
  if (m.len : ℤ) ≤ threshold then some ([], m)
  else
    let sorted := m.index.mergeSort fun a b => decide (a ≤ b)
    (capLoop threshold sorted m.len m.items []).bind fun (items, drops) =>
      -- `(*m.index)[:threshold]`; past the length Go reads into the slice's
      -- capacity, which the model does not keep
      if sorted.length < threshold.toNat then none
      else
        (Heap.init nonceHeap (sorted.take threshold.toNat)).bind fun index =>
          match m.cache with
          | none => some (drops, ⟨items, index, none⟩)
          | some c =>
              if drops.length ≤ c.length then
                some (drops, ⟨items, index, some (c.take (c.length - drops.length))⟩)
              else none

/-- `Remove`: `heap.Remove` at the first position of `n` in the heap. -/
def remove (n : ℕ) (m : TxSortedMap τ) : Option (Bool × TxSortedMap τ) :=
  if m.items.lookup n = none then some (false, m)
  else
    (match m.index.findIdx? (· == n) with
      | none => some m.index
      | some i => (Heap.remove nonceHeap m.index i).map Prod.snd).map
      fun index => (true, ⟨m.items.erase n, index, none⟩)

/-- The loop of `Ready`: pop `next`, `next + 1`, … while the least nonce is `next`. -/
def readyLoop (items : AList fun _ : ℕ => τ) (index : List ℕ) (next : ℕ) (ready : List (Option τ)) :
    Option ((AList fun _ : ℕ => τ) × List ℕ × List (Option τ)) :=
  match index[0]? with
  | some least =>
      if least = next then
        match _h : Heap.pop nonceHeap index with
        | none => none
        | some (_, index') => readyLoop (items.erase next) index' (next + 1) (ready ++ [items.lookup next])
      else some (items, index, ready)
  | none => some (items, index, ready)
termination_by index.length
decreasing_by
  have := (perm_of_pop _h).length_eq
  simp only [List.length_cons] at this
  omega

/-- `Ready`. -/
def ready (start : ℕ) (m : TxSortedMap τ) : Option (List (Option τ) × TxSortedMap τ) :=
  match m.index[0]? with
  | none => some ([], m)
  | some least =>
      if start < least then some ([], m)
      else (readyLoop m.items m.index least []).map fun (items, index, ready) => (ready, ⟨items, index, none⟩)

/-- `flatten`, whose list `Flatten` copies; `order` lists the entries of
`items` as the `range` visits them. -/
def flatten (order : List (Σ _ : ℕ, τ)) (m : TxSortedMap τ) : List τ × TxSortedMap τ :=
  match m.cache with
  | some c => (c, m)
  | none =>
      let c := (order.map Sigma.snd).mergeSort fun a b => decide (nonce a ≤ nonce b)
      (c, { m with cache := some c })

/-- `LastElement`: the last transaction of `flatten`, a panic when there is none. -/
def lastElement (order : List (Σ _ : ℕ, τ)) (m : TxSortedMap τ) : Option (τ × TxSortedMap τ) :=
  let r := m.flatten nonce order
  r.1.getLast?.map (·, r.2)

/-- The calls that change a `txSortedMap`, with the orders their `range`s take. -/
inductive Op (τ : Type)
  | put (tx : τ)
  | forward (threshold : ℕ)
  | filter (f : τ → Bool) (order₁ : List (Σ _ : ℕ, τ)) (order₂ : List ℕ)
  | filterReheap (f : τ → Bool) (order₁ : List (Σ _ : ℕ, τ)) (order₂ : List ℕ)
  | cap (threshold : ℤ)
  | remove (n : ℕ)
  | ready (start : ℕ)
  | flatten (order : List (Σ _ : ℕ, τ))
  | lastElement (order : List (Σ _ : ℕ, τ))

/-- A call, its answer dropped; `filterReheap` is `filter` and then `reheap`. -/
def Op.apply : Op τ → TxSortedMap τ → Option (TxSortedMap τ)
  | .put tx, m => m.put nonce tx
  | .forward threshold, m => (m.forward threshold).map Prod.snd
  | .filter f order₁ order₂, m => (m.filter f order₁ order₂).map Prod.snd
  | .filterReheap f order₁ order₂, m => (m.filterNoReheap f order₁).2.reheap order₂
  | .cap threshold, m => (m.cap threshold).map Prod.snd
  | .remove n, m => (m.remove n).map Prod.snd
  | .ready start, m => (m.ready start).map Prod.snd
  | .flatten order, m => some (m.flatten nonce order).2
  | .lastElement order, m => (m.lastElement nonce order).map Prod.snd

/-- The orders are ones a `range` can take: each lists the entries, or the
keys, of the map it ranges over. -/
def Op.Fits (m : TxSortedMap τ) : Op τ → Prop
  | .filter f order₁ order₂ => order₁.Perm m.items.entries ∧ order₂.Perm (m.filterNoReheap f order₁).2.items.keys
  | .filterReheap f order₁ order₂ =>
      order₁.Perm m.items.entries ∧ order₂.Perm (m.filterNoReheap f order₁).2.items.keys
  | .flatten order => order.Perm m.items.entries
  | .lastElement order => order.Perm m.items.entries
  | _ => True

/-- The maps a caller reaches from `newTxSortedMap`. -/
inductive Reachable : TxSortedMap τ → Prop
  | new : Reachable new
  | step {m m' : TxSortedMap τ} {op : Op τ} : Reachable m → op.Fits m → op.apply nonce m = some m' → Reachable m'

end Calls

/-! ## Lists and maps by nonce -/

section Lists

variable {f : τ → ℕ}

theorem nodup_of_increasing {l : List τ} (h : l.Pairwise fun a b => f a < f b) : l.Nodup :=
  h.imp fun hab => ne_of_apply_ne f (Nat.ne_of_lt hab)

/-- Two lists increasing in `f` with the same members are equal. -/
theorem eq_of_increasing {l₁ l₂ : List τ} (h₁ : l₁.Pairwise fun a b => f a < f b)
    (h₂ : l₂.Pairwise fun a b => f a < f b) (hmem : ∀ x, x ∈ l₁ ↔ x ∈ l₂) : l₁ = l₂ :=
  List.Perm.eq_of_pairwise (fun _ _ _ _ hab hba => absurd hab (Nat.lt_asymm hba)) h₁ h₂
    ((List.perm_ext_iff_of_nodup (nodup_of_increasing h₁) (nodup_of_increasing h₂)).mpr hmem)

/-- A list increasing in `f` splits into the members below and above a cut. -/
theorem eq_append_of_increasing {c a b : List τ} (hc : c.Pairwise fun x y => f x < f y)
    (ha : a.Pairwise fun x y => f x < f y) (hb : b.Pairwise fun x y => f x < f y)
    (hab : ∀ x ∈ a, ∀ y ∈ b, f x < f y) (hmem : ∀ x, x ∈ c ↔ x ∈ a ∨ x ∈ b) : c = a ++ b :=
  eq_of_increasing hc (List.pairwise_append.mpr ⟨ha, hb, hab⟩) fun x => by rw [hmem, List.mem_append]

end Lists

section Maps

variable {items : AList fun _ : ℕ => τ}

theorem lookup_erase_eq (items : AList fun _ : ℕ => τ) (n k : ℕ) :
    (items.erase n).lookup k = if k = n then none else items.lookup k := by
  split_ifs with h
  · rw [h]
    exact AList.lookup_erase _ _
  · exact AList.lookup_erase_ne h

theorem lookup_insert_eq (items : AList fun _ : ℕ => τ) (n k : ℕ) (tx : τ) :
    (items.insert n tx).lookup k = if k = n then some tx else items.lookup k := by
  split_ifs with h
  · rw [h]
    exact AList.lookup_insert _
  · exact AList.lookup_insert_ne h

theorem mem_keys_iff_lookup {n : ℕ} : n ∈ items.keys ↔ (items.lookup n).isSome := by
  rw [AList.lookup_isSome, AList.mem_keys]

theorem mem_keys_of_lookup {n : ℕ} {tx : τ} (h : items.lookup n = some tx) : n ∈ items.keys :=
  mem_keys_iff_lookup.mpr (by rw [h]; rfl)

/-- A slice of the keys, each once, in any order. -/
theorem perm_keys_of_lookup {index : List ℕ} (hnd : index.Nodup)
    (h : ∀ n, n ∈ index ↔ (items.lookup n).isSome) : index.Perm items.keys :=
  (List.perm_ext_iff_of_nodup hnd items.keys_nodup).mpr fun n => by rw [h, mem_keys_iff_lookup]

theorem lookup_foldl_erase (k : ℕ) : ∀ (ns : List ℕ) (items : AList fun _ : ℕ => τ),
    (ns.foldl (fun s n => s.erase n) items).lookup k = if k ∈ ns then none else items.lookup k
  | [], items => by simp
  | n :: ns, items => by
      rw [List.foldl_cons, lookup_foldl_erase k ns, lookup_erase_eq]
      by_cases hk : k ∈ ns
      · simp [hk]
      · by_cases hkn : k = n <;> simp [hk, hkn]

end Maps

/-! ## The invariant -/

section Invariant

variable (nonce : τ → ℕ)

/-- `txs` lists the transactions of `items` by strictly increasing nonce. -/
structure ListsByNonce (items : AList fun _ : ℕ => τ) (txs : List τ) : Prop where
  increasing : txs.Pairwise fun a b => nonce a < nonce b
  mem : ∀ tx, tx ∈ txs ↔ items.lookup (nonce tx) = some tx

/-- Every transaction of `items` sits at its own nonce, as `Put` stores it. -/
def AtNonce (items : AList fun _ : ℕ => τ) : Prop := ∀ n tx, items.lookup n = some tx → nonce tx = n

/-- The representation invariant of `txSortedMap`: `index` is a min-heap
holding each nonce of `items` once, and a cache lists the transactions of
`items` by strictly increasing nonce. -/
structure Inv (m : TxSortedMap τ) : Prop where
  atNonce : AtNonce nonce m.items
  heap : IsHeap (· < ·) m.index
  index : m.index.Perm m.items.keys
  cache : ∀ c ∈ m.cache, ListsByNonce nonce m.items c

variable {nonce} {items : AList fun _ : ℕ => τ} {m : TxSortedMap τ}

theorem AtNonce.erase (h : AtNonce nonce items) (n : ℕ) : AtNonce nonce (items.erase n) := by
  intro k tx hk
  rw [lookup_erase_eq] at hk
  split_ifs at hk
  exact h k tx hk

theorem AtNonce.insert (h : AtNonce nonce items) (tx : τ) : AtNonce nonce (items.insert (nonce tx) tx) := by
  intro k tx' hk
  rw [lookup_insert_eq] at hk
  split_ifs at hk with hkn
  · rw [← Option.some_inj.mp hk, hkn]
  · exact h k tx' hk

theorem first_le {index : List ℕ} (hh : IsHeap (· < ·) index) {least : ℕ} (h0 : index[0]? = some least)
    {n : ℕ} (hn : n ∈ index) : least ≤ n :=
  Nat.le_of_not_lt (hh.not_before_first h0 n hn)

theorem inv_new : (new : TxSortedMap τ).Inv nonce where
  atNonce n tx h := by simp [new] at h
  heap := by
    intro c _ hc
    simp [new] at hc
  index := by simp [new]
  cache c hc := by simp [new] at hc

theorem Inv.put (hm : m.Inv nonce) (tx : τ) :
    ∃ m', m.put nonce tx = some m' ∧ m'.Inv nonce ∧ m'.items = m.items.insert (nonce tx) tx := by
  by_cases hn : m.items.lookup (nonce tx) = none
  · -- a new nonce: pushed on the heap
    obtain ⟨L', hp, hperm, hh⟩ := push_spec hm.heap (nonce tx)
    have hnk : nonce tx ∉ m.items.keys := fun hk => by
      rw [mem_keys_iff_lookup, hn] at hk
      cases hk
    refine ⟨⟨m.items.insert (nonce tx) tx, L', none⟩, by simp [TxSortedMap.put, hn, nonceHeap, hp],
      ⟨hm.atNonce.insert tx, hh, ?_, by simp⟩, rfl⟩
    rw [AList.keys_insert, List.erase_of_not_mem hnk]
    exact hperm.trans ((hm.index.append_right _).trans (List.perm_append_singleton _ _))
  · -- a nonce already there: the heap stays
    have hnk : nonce tx ∈ m.items.keys := mem_keys_iff_lookup.mpr (Option.isSome_iff_ne_none.mpr hn)
    refine ⟨⟨m.items.insert (nonce tx) tx, m.index, none⟩, by simp [TxSortedMap.put, hn],
      ⟨hm.atNonce.insert tx, hm.heap, ?_, by simp⟩, rfl⟩
    rw [AList.keys_insert]
    exact hm.index.trans (List.perm_cons_erase hnk)

/-! ### Forward -/

section Forward

variable {threshold : ℕ} {items : AList fun _ : ℕ => τ} {index : List ℕ} {removed : List (Option τ)}

theorem forwardLoop_pop {least n : ℕ} {index' : List ℕ} (h0 : index[0]? = some least) (hlt : least < threshold)
    (hp : Heap.pop nonceHeap index = some (n, index')) :
    forwardLoop threshold items index removed =
      forwardLoop threshold (items.erase n) index' (removed ++ [items.lookup n]) := by
  rw [forwardLoop, h0]
  simp only [hlt, if_true]
  split
  · rename_i hnone
    rw [hp] at hnone
    cases hnone
  · rename_i n' index'' hsome
    rw [hp] at hsome
    cases hsome
    rfl

theorem forwardLoop_stop (h : ∀ least, index[0]? = some least → threshold ≤ least) :
    forwardLoop threshold items index removed = some (items, index, removed) := by
  rw [forwardLoop]
  cases h0 : index[0]? with
  | none => rfl
  | some least => simp [Nat.not_lt.mpr (h least h0)]

/-- The loop of `Forward` pops exactly the nonces below the threshold, least first. -/
theorem forwardLoop_spec (threshold : ℕ) {items : AList fun _ : ℕ => τ} {index : List ℕ} (removed : List (Option τ)) (hh : IsHeap (· < ·) index) (hperm : index.Perm items.keys)
    (hat : AtNonce nonce items) :
    ∃ (items' : AList fun _ : ℕ => τ) (index' : List ℕ) (txs : List τ), forwardLoop threshold items index removed = some (items', index', removed ++ txs.map some) ∧
      IsHeap (· < ·) index' ∧ index'.Perm items'.keys ∧ AtNonce nonce items' ∧
      (∀ n, items'.lookup n = if n < threshold then none else items.lookup n) ∧
      txs.Pairwise (fun a b => nonce a < nonce b) ∧
      ∀ tx, tx ∈ txs ↔ items.lookup (nonce tx) = some tx ∧ nonce tx < threshold := by
  by_cases hgo : ∃ least, index[0]? = some least ∧ least < threshold
  · obtain ⟨least, h0, hlt⟩ := hgo
    have hne : index ≠ [] := by
      rintro rfl
      simp at h0
    obtain ⟨x, L', hp, hx, hmin, hxperm, hh'⟩ := pop_spec hh hne
    obtain rfl : x = least := Option.some_inj.mp (hx.symm.trans h0)
    -- the least nonce is a key of `items`, and the others are the keys left
    have hxk : x ∈ items.keys := hperm.subset (List.mem_of_getElem? h0)
    obtain ⟨tx, htx⟩ := Option.isSome_iff_exists.mp (mem_keys_iff_lookup.mp hxk)
    have hnx : nonce tx = x := hat x tx htx
    have hperm' : L'.Perm (items.erase x).keys := by
      rw [AList.keys_erase]
      exact ((hxperm.trans hperm).trans (List.perm_cons_erase hxk)).cons_inv
    obtain ⟨items', index', txs, hrun, hh'', hperm'', hat', hlook, hinc, hmem⟩ :=
      forwardLoop_spec threshold (removed ++ [items.lookup x]) hh' hperm' (hat.erase x)
    refine ⟨items', index', tx :: txs, ?_, hh'', hperm'', hat', fun n => ?_, ?_, fun tx' => ?_⟩
    · rw [forwardLoop_pop h0 hlt hp, hrun, htx]
      simp
    · rw [hlook n, lookup_erase_eq]
      by_cases hn : n < threshold
      · simp [hn]
      · have hnx' : n ≠ x := by omega
        simp [hn, hnx']
    · -- every nonce popped later is above `x`, the least
      refine List.Pairwise.cons (fun tx' htx' => ?_) hinc
      have h1 := ((hmem tx').mp htx').1
      rw [lookup_erase_eq] at h1
      split_ifs at h1 with hne'
      have hk : nonce tx' ∈ index := hperm.symm.subset (mem_keys_of_lookup h1)
      have hle := Nat.le_of_not_lt (hmin _ hk)
      rw [hnx]
      omega
    · rw [List.mem_cons, hmem tx', lookup_erase_eq]
      constructor
      · rintro (rfl | ⟨h1, h2⟩)
        · rw [hnx]
          exact ⟨htx, hlt⟩
        · split_ifs at h1
          exact ⟨h1, h2⟩
      · rintro ⟨h1, h2⟩
        by_cases hx' : nonce tx' = x
        · left
          rw [hx', htx] at h1
          exact (Option.some_inj.mp h1).symm
        · right
          rw [if_neg hx']
          exact ⟨h1, h2⟩
  · simp only [not_exists, not_and, Nat.not_lt] at hgo
    -- every key is at least the least nonce, which is not below the threshold
    have hbelow : ∀ n, n < threshold → items.lookup n = none := by
      intro n hn
      cases hl : items.lookup n with
      | none => rfl
      | some tx =>
          have hk : n ∈ index := hperm.symm.subset (mem_keys_of_lookup hl)
          obtain ⟨least, h0⟩ : ∃ least, index[0]? = some least :=
            ⟨_, List.getElem?_eq_getElem (List.length_pos_of_mem hk)⟩
          have := first_le hh h0 hk
          have := hgo least h0
          omega
    refine ⟨items, index, [], by rw [forwardLoop_stop hgo]; simp, hh, hperm, hat, fun n => ?_,
      List.Pairwise.nil, fun tx => ?_⟩
    · split_ifs with hn
      · exact hbelow n hn
      · rfl
    · simp only [List.not_mem_nil, false_iff, not_and]
      intro h1 h2
      rw [hbelow _ h2] at h1
      cases h1
termination_by index.length
decreasing_by
  have := hxperm.length_eq
  simp only [List.length_cons] at this
  omega

/-- `Forward` keeps the invariant and returns the transactions below the
threshold, least nonce first. -/
theorem Inv.forward (hm : m.Inv nonce) (threshold : ℕ) :
    ∃ removed m', m.forward threshold = some (removed, m') ∧ m'.Inv nonce ∧
      (∀ n, m'.items.lookup n = if n < threshold then none else m.items.lookup n) ∧
      ∃ txs : List τ, removed = txs.map some ∧ txs.Pairwise (fun a b => nonce a < nonce b) ∧
        ∀ tx, tx ∈ txs ↔ m.items.lookup (nonce tx) = some tx ∧ nonce tx < threshold := by
  obtain ⟨items', index', txs, hrun, hh, hperm, hat, hlook, hinc, hmem⟩ :=
    forwardLoop_spec threshold [] hm.heap hm.index hm.atNonce
  rw [List.nil_append] at hrun
  cases hc : m.cache with
  | none =>
      exact ⟨txs.map some, ⟨items', index', none⟩, by simp [TxSortedMap.forward, hrun, hc],
        ⟨hat, hh, hperm, by simp⟩, hlook, txs, rfl, hinc, hmem⟩
  | some c =>
      have hlists := hm.cache c (by rw [hc]; rfl)
      -- the cache is the removed transactions followed by those left
      have hsplit : c = txs ++ c.filter fun tx => threshold ≤ nonce tx := by
        refine eq_append_of_increasing hlists.increasing hinc (hlists.increasing.filter _) ?_ fun tx => ?_
        · intro a ha b hb
          have := ((hmem a).mp ha).2
          have := (of_decide_eq_true (List.mem_filter.mp hb).2)
          omega
        · rw [List.mem_filter, hmem, hlists.mem, decide_eq_true_iff]
          by_cases hn : nonce tx < threshold
          · simp [hn]
          · simp [hn, Nat.le_of_not_lt hn]
      have hlen : txs.length ≤ c.length := by
        rw [hsplit, List.length_append]
        omega
      refine ⟨txs.map some, ⟨items', index', some (c.drop txs.length)⟩,
        by simp [TxSortedMap.forward, hrun, hc, hlen], ⟨hat, hh, hperm, ?_⟩, hlook, txs, rfl, hinc, hmem⟩
      intro c' hc'
      cases hc'
      rw [hsplit, List.drop_left]
      refine ⟨hlists.increasing.filter _, fun tx => ?_⟩
      rw [List.mem_filter, hlists.mem, hlook, decide_eq_true_iff]
      by_cases hn : nonce tx < threshold
      · simp [hn]
      · simp [hn, Nat.le_of_not_lt hn]

end Forward

/-! ### Filter and reheap -/

section Filter

variable {f : τ → Bool}

theorem filterLoop_eq (f : τ → Bool) : ∀ (order : List (Σ _ : ℕ, τ)) (items : AList fun _ : ℕ => τ)
    (removed : List τ), filterLoop f order items removed =
      (((order.filter fun e => f e.2).map Sigma.fst).foldl (fun s n => s.erase n) items,
        removed ++ (order.filter fun e => f e.2).map Sigma.snd)
  | [], items, removed => by simp [filterLoop]
  | ⟨n, tx⟩ :: rest, items, removed => by
      by_cases h : f tx <;> simp [filterLoop, h, filterLoop_eq f rest]

/-- What a `range` over the entries finds: a key whose transaction `f` picks. -/
theorem mem_picked_keys {order : List (Σ _ : ℕ, τ)} (ho : order.Perm items.entries)
    (n : ℕ) : n ∈ (order.filter fun e => f e.2).map Sigma.fst ↔ ∃ tx, items.lookup n = some tx ∧ f tx = true := by
  simp only [List.mem_map, List.mem_filter, ho.mem_iff]
  constructor
  · rintro ⟨⟨k, tx⟩, ⟨he, hf⟩, rfl⟩
    exact ⟨tx, AList.mem_lookup_iff.mpr he, hf⟩
  · rintro ⟨tx, hl, hf⟩
    exact ⟨⟨n, tx⟩, ⟨AList.mem_lookup_iff.mp hl, hf⟩, rfl⟩

theorem picked_spec (hat : AtNonce nonce items) {order : List (Σ _ : ℕ, τ)} (ho : order.Perm items.entries) :
    ((order.filter fun e => f e.2).map Sigma.snd).Nodup ∧
      ∀ tx, tx ∈ (order.filter fun e => f e.2).map Sigma.snd ↔ items.lookup (nonce tx) = some tx ∧ f tx = true := by
  have hentry : ∀ e ∈ order, items.lookup e.1 = some e.2 := fun e he =>
    AList.mem_lookup_iff.mpr (ho.subset he)
  refine ⟨?_, fun tx => ?_⟩
  · -- two entries with one transaction have its nonce as key
    refine List.Nodup.map_on (fun e₁ he₁ e₂ he₂ h => ?_) ((ho.nodup_iff.mpr items.nodupKeys.nodup).filter _)
    have h₁ := hat _ _ (hentry e₁ (List.mem_of_mem_filter he₁))
    have h₂ := hat _ _ (hentry e₂ (List.mem_of_mem_filter he₂))
    exact Sigma.ext (h₁.symm.trans (h ▸ h₂)) (heq_of_eq h)
  · simp only [List.mem_map, List.mem_filter]
    constructor
    · rintro ⟨e, ⟨he, hf⟩, rfl⟩
      have hl := hentry e he
      rw [hat _ _ hl]
      exact ⟨hl, hf⟩
    · rintro ⟨hl, hf⟩
      exact ⟨⟨nonce tx, tx⟩, ⟨ho.symm.subset (AList.mem_lookup_iff.mp hl), hf⟩, rfl⟩

/-- `reheap` over the keys in any order makes the heap of them. -/
theorem reheap_spec (hat : AtNonce nonce m.items) {order : List ℕ} (ho : order.Perm m.items.keys) :
    ∃ m', m.reheap order = some m' ∧ m'.Inv nonce ∧ m'.items = m.items := by
  obtain ⟨index, hi, hperm, hh⟩ := init_spec (r := (· < ·)) order
  exact ⟨{ m with index, cache := none }, by simp [TxSortedMap.reheap, nonceHeap, hi],
    ⟨hat, hh, hperm.trans ho, by simp⟩, rfl⟩

theorem filterNoReheap_spec (hat : AtNonce nonce m.items) {order : List (Σ _ : ℕ, τ)}
    (ho : order.Perm m.items.entries) :
    (m.filterNoReheap f order).1.Nodup ∧
      (∀ tx, tx ∈ (m.filterNoReheap f order).1 ↔ m.items.lookup (nonce tx) = some tx ∧ f tx = true) ∧
      AtNonce nonce (m.filterNoReheap f order).2.items ∧
      (∀ n, (m.filterNoReheap f order).2.items.lookup n =
        if ∃ tx, m.items.lookup n = some tx ∧ f tx = true then none else m.items.lookup n) ∧
      ((m.filterNoReheap f order).1 = [] → (m.filterNoReheap f order).2 = m) := by
  obtain ⟨hnd, hmem⟩ := picked_spec (f := f) hat ho
  have hlook : ∀ n, (m.filterNoReheap f order).2.items.lookup n =
      if ∃ tx, m.items.lookup n = some tx ∧ f tx = true then none else m.items.lookup n := by
    intro n
    simp only [filterNoReheap, filterLoop_eq, lookup_foldl_erase, mem_picked_keys ho]
  refine ⟨by simpa [filterNoReheap, filterLoop_eq] using hnd, fun tx => ?_, fun n tx hn => ?_, hlook, fun h => ?_⟩
  · simpa [filterNoReheap, filterLoop_eq] using hmem tx
  · rw [hlook] at hn
    split_ifs at hn
    exact hat n tx hn
  · simp only [filterNoReheap, filterLoop_eq, List.nil_append, List.map_eq_nil_iff] at h ⊢
    simp [h]

/-- `Filter` keeps the invariant and returns, each once, the transactions it
deletes: those `f` picks. -/
theorem Inv.filter (hm : m.Inv nonce) (f : τ → Bool) {order₁ : List (Σ _ : ℕ, τ)} {order₂ : List ℕ}
    (h₁ : order₁.Perm m.items.entries) (h₂ : order₂.Perm (m.filterNoReheap f order₁).2.items.keys) :
    ∃ removed m', m.filter f order₁ order₂ = some (removed, m') ∧ m'.Inv nonce ∧ removed.Nodup ∧
      (∀ tx, tx ∈ removed ↔ m.items.lookup (nonce tx) = some tx ∧ f tx = true) ∧
      ∀ n, m'.items.lookup n = if ∃ tx, m.items.lookup n = some tx ∧ f tx = true then none else m.items.lookup n := by
  obtain ⟨hnd, hmem, hat, hlook, hsame⟩ := filterNoReheap_spec (f := f) hm.atNonce h₁
  by_cases hr : 0 < (m.filterNoReheap f order₁).1.length
  · obtain ⟨m', hre, hinv, hitems⟩ := reheap_spec hat h₂
    refine ⟨_, m', by simp [TxSortedMap.filter, hr, hre], hinv, hnd, hmem, fun n => ?_⟩
    rw [hitems, hlook]
  · have hnil := hsame (List.eq_nil_of_length_eq_zero (Nat.eq_zero_of_not_pos hr))
    refine ⟨_, (m.filterNoReheap f order₁).2, by simp [TxSortedMap.filter, hr], by rw [hnil]; exact hm, hnd, hmem,
      fun n => ?_⟩
    rw [hlook]

/-- `filter` followed by `reheap` keeps the invariant. -/
theorem Inv.filterReheap (hm : m.Inv nonce) (f : τ → Bool) {order₁ : List (Σ _ : ℕ, τ)} {order₂ : List ℕ}
    (h₁ : order₁.Perm m.items.entries) (h₂ : order₂.Perm (m.filterNoReheap f order₁).2.items.keys) :
    ∃ m', (m.filterNoReheap f order₁).2.reheap order₂ = some m' ∧ m'.Inv nonce := by
  obtain ⟨-, -, hat, -⟩ := filterNoReheap_spec (f := f) hm.atNonce h₁
  obtain ⟨m', hre, hinv, -⟩ := reheap_spec hat h₂
  exact ⟨m', hre, hinv⟩

end Filter

/-! ### Cap -/

section Cap

theorem increasing_mergeSort {L : List ℕ} (hnd : L.Nodup) :
    (L.mergeSort fun a b => decide (a ≤ b)).Pairwise (· < ·) := by
  have hle := @List.pairwise_mergeSort ℕ (fun a b => decide (a ≤ b))
    (fun a b c hab hbc => by simp only [decide_eq_true_eq] at *; omega)
    (fun a b => by simp only [Bool.or_eq_true, decide_eq_true_eq]; omega) L
  have hnd' := (List.mergeSort_perm L fun a b => decide (a ≤ b)).nodup_iff.mpr hnd
  exact (hle.and hnd').imp fun h => Nat.lt_of_le_of_ne (of_decide_eq_true h.1) h.2

/-- The transactions at keys of the map, and their nonces. -/
theorem exists_txs (hat : AtNonce nonce items) : ∀ (ns : List ℕ), (∀ n ∈ ns, n ∈ items.keys) →
    ∃ txs : List τ, ns.map items.lookup = txs.map some ∧ txs.map nonce = ns ∧
      ∀ tx ∈ txs, items.lookup (nonce tx) = some tx
  | [], _ => ⟨[], rfl, rfl, fun _ h => absurd h List.not_mem_nil⟩
  | n :: ns, h => by
      obtain ⟨tx, htx⟩ := Option.isSome_iff_exists.mp (mem_keys_iff_lookup.mp (h n List.mem_cons_self))
      obtain ⟨txs, h₁, h₂, h₃⟩ := exists_txs hat ns fun k hk => h k (List.mem_cons_of_mem n hk)
      have hn := hat n tx htx
      refine ⟨tx :: txs, by simp [htx, h₁], by simp [hn, h₂], fun tx' htx' => ?_⟩
      rcases List.mem_cons.mp htx' with rfl | h'
      · rw [hn]
        exact htx
      · exact h₃ tx' h'

/-- The loop of `Cap` from `threshold + j` drops the `j` nonces above the
`threshold` first, highest first. -/
theorem capLoop_spec (threshold : ℕ) {sorted : List ℕ} (hS : sorted.Nodup) :
    ∀ (j : ℕ) (items : AList fun _ : ℕ => τ) (drops : List (Option τ)), threshold + j ≤ sorted.length →
      ∃ items', capLoop (threshold : ℤ) sorted (threshold + j) items drops =
          some (items', drops ++ ((sorted.drop threshold).take j).reverse.map items.lookup) ∧
        ∀ n, items'.lookup n = if n ∈ (sorted.drop threshold).take j then none else items.lookup n
  | 0, items, drops, _ => ⟨items, by cases threshold <;> simp [capLoop], fun n => by simp⟩
  | j + 1, items, drops, hj => by
      have hk : threshold + j < sorted.length := by omega
      obtain ⟨items', hrun, hlook⟩ := capLoop_spec threshold hS j (items.erase sorted[threshold + j])
        (drops ++ [items.lookup sorted[threshold + j]]) (by omega)
      have htake : (sorted.drop threshold).take (j + 1) = (sorted.drop threshold).take j ++ [sorted[threshold + j]] := by
        rw [List.take_add_one, List.getElem?_drop, List.getElem?_eq_getElem hk]
        rfl
      -- the nonce dropped now is not among those dropped later
      have hx : sorted[threshold + j] ∉ (sorted.drop threshold).take j := by
        have hnd := (hS.sublist (List.drop_sublist threshold sorted)).sublist (List.take_sublist (j + 1) _)
        rw [htake, List.nodup_append] at hnd
        exact fun h => hnd.2.2 _ h _ List.mem_cons_self rfl
      refine ⟨items', ?_, fun n => ?_⟩
      · have hmap : ((sorted.drop threshold).take j).reverse.map (items.erase sorted[threshold + j]).lookup =
            ((sorted.drop threshold).take j).reverse.map items.lookup :=
          List.map_congr_left fun n hn => by
            rw [lookup_erase_eq, if_neg fun (h : n = sorted[threshold + j]) => hx (h ▸ List.mem_reverse.mp hn)]
        rw [show threshold + (j + 1) = (threshold + j) + 1 by omega, capLoop,
          if_pos (by push_cast; omega), List.getElem?_eq_getElem hk, Option.bind_some, hrun, htake,
          List.reverse_append, hmap]
        simp
      · rw [hlook, lookup_erase_eq, htake]
        by_cases h₁ : n ∈ (sorted.drop threshold).take j <;> by_cases h₂ : n = sorted[threshold + j] <;>
          simp [h₁, h₂]

/-- `Cap` keeps the invariant and returns the transactions of the
`len - threshold` highest nonces, highest first. -/
theorem Inv.cap (hm : m.Inv nonce) (threshold : ℕ) :
    ∃ drops m', m.cap threshold = some (drops, m') ∧ m'.Inv nonce ∧
      ∃ txs : List τ, drops = txs.map some ∧ txs.length = m.len - threshold ∧
        txs.Pairwise (fun a b => nonce b < nonce a) ∧ (∀ tx ∈ txs, m.items.lookup (nonce tx) = some tx) ∧
        (∀ n, m'.items.lookup n = if ∃ tx ∈ txs, nonce tx = n then none else m.items.lookup n) ∧
        ∀ n ∈ m'.items.keys, ∀ tx ∈ txs, n < nonce tx := by
  by_cases hle : m.len ≤ threshold
  · refine ⟨[], m, by simp [TxSortedMap.cap, hle], hm, [], rfl, by simp; omega, List.Pairwise.nil,
      fun _ h => absurd h List.not_mem_nil, fun n => by simp, fun _ _ _ h => absurd h List.not_mem_nil⟩
  set sorted := m.index.mergeSort fun a b => decide (a ≤ b) with hsorted
  have hperm : sorted.Perm m.items.keys := (List.mergeSort_perm _ _).trans hm.index
  have hinc := increasing_mergeSort (hm.index.nodup_iff.mpr m.items.keys_nodup)
  rw [← hsorted] at hinc
  have hnd : sorted.Nodup := hperm.nodup_iff.mpr m.items.keys_nodup
  have hlen : sorted.length = m.len := hperm.length_eq
  obtain ⟨items', hrun, hlook⟩ := capLoop_spec threshold hnd (m.len - threshold) m.items [] (by omega)
  have hdrop : (sorted.drop threshold).take (m.len - threshold) = sorted.drop threshold :=
    List.take_of_length_le (by rw [List.length_drop]; omega)
  rw [hdrop, show threshold + (m.len - threshold) = m.len by omega] at hrun
  rw [hdrop] at hlook
  have hsplit := (List.take_append_drop threshold sorted).symm
  -- the dropped nonces are keys, above every nonce kept
  have hdropkeys : ∀ n ∈ (sorted.drop threshold).reverse, n ∈ m.items.keys := fun n hn =>
    hperm.subset (List.mem_of_mem_drop (List.mem_reverse.mp hn))
  obtain ⟨txs, hmap, hnonce, hat⟩ := exists_txs hm.atNonce _ hdropkeys
  have habove : ∀ a ∈ sorted.take threshold, ∀ b ∈ sorted.drop threshold, a < b := by
    rw [hsplit, List.pairwise_append] at hinc
    simpa using hinc.2.2
  have hmemtx : ∀ n, (∃ tx ∈ txs, nonce tx = n) ↔ n ∈ sorted.drop threshold := by
    intro n
    rw [← List.mem_reverse, ← hnonce, List.mem_map]
  have hkept : ∀ n, (items'.lookup n).isSome ↔ n ∈ sorted.take threshold := by
    intro n
    rw [hlook]
    by_cases hd : n ∈ sorted.drop threshold
    · have hnt : n ∉ sorted.take threshold := fun ht => Nat.lt_irrefl n (habove n ht n hd)
      simp [hd, hnt]
    · rw [if_neg hd, ← mem_keys_iff_lookup, ← hperm.mem_iff]
      constructor
      · intro hs
        rw [hsplit, List.mem_append] at hs
        exact hs.resolve_right hd
      · exact List.mem_of_mem_take
  obtain ⟨index, hi, hiperm, hh⟩ := init_spec (r := (· < ·)) (sorted.take threshold)
  have hatn : AtNonce nonce items' := fun n tx hn => by
    rw [hlook] at hn
    split_ifs at hn
    exact hm.atNonce n tx hn
  have hindex : index.Perm items'.keys :=
    perm_keys_of_lookup (hiperm.nodup_iff.mpr (hnd.sublist (List.take_sublist _ _)))
      fun n => by rw [hiperm.mem_iff, hkept]
  have htxs : txs.Pairwise fun a b => nonce b < nonce a := by
    have := List.pairwise_reverse.mpr (hinc.sublist (List.drop_sublist threshold sorted))
    rw [← hnonce, List.pairwise_map] at this
    exact this
  have hlook' : ∀ n, items'.lookup n = if ∃ tx ∈ txs, nonce tx = n then none else m.items.lookup n := by
    intro n
    rw [hlook]
    exact if_congr (hmemtx n).symm rfl rfl
  have hlow : ∀ n ∈ items'.keys, ∀ tx ∈ txs, n < nonce tx := by
    intro n hn tx htx
    exact habove n ((hkept n).mp (mem_keys_iff_lookup.mp hn)) _ ((hmemtx _).mp ⟨tx, htx, rfl⟩)
  have hlenTxs : txs.length = m.len - threshold := by
    rw [← List.length_map (f := nonce), hnonce, List.length_reverse, List.length_drop, hlen]
  have hcap : ¬ sorted.length < threshold := by omega
  cases hc : m.cache with
  | none =>
      refine ⟨txs.map some, ⟨items', index, none⟩, ?_, ⟨hatn, hh, hindex, by simp⟩, txs, rfl, hlenTxs, htxs,
        hat, hlook', hlow⟩
      simp [TxSortedMap.cap, hle, ← hsorted, hrun, hmap, hcap, nonceHeap, hi, hc]
  | some c =>
      have hlists := hm.cache c (by rw [hc]; rfl)
      -- the cache is the transactions kept followed by those dropped, lowest first
      have hcsplit : c = c.filter (fun tx => decide (nonce tx ∈ sorted.take threshold)) ++ txs.reverse := by
        refine eq_append_of_increasing hlists.increasing (hlists.increasing.filter _)
          (List.pairwise_reverse.mpr htxs) (fun a ha b hb => ?_) fun tx => ?_
        · exact habove _ (of_decide_eq_true (List.mem_filter.mp ha).2) _
            ((hmemtx _).mp ⟨b, List.mem_reverse.mp hb, rfl⟩)
        · rw [List.mem_filter, List.mem_reverse, hlists.mem, decide_eq_true_iff]
          constructor
          · intro hl
            have hk : nonce tx ∈ sorted := hperm.symm.subset (mem_keys_of_lookup hl)
            rw [hsplit, List.mem_append] at hk
            rcases hk with hk | hk
            · exact Or.inl ⟨hl, hk⟩
            · obtain ⟨tx', htx', hn⟩ := (hmemtx _).mpr hk
              have := hat tx' htx'
              rw [hn, hl] at this
              exact Or.inr (Option.some_inj.mp this ▸ htx')
          · rintro (⟨hl, -⟩ | htx)
            · exact hl
            · exact hat tx htx
      obtain ⟨a, ha, hca⟩ : ∃ a, a = c.filter (fun tx => decide (nonce tx ∈ sorted.take threshold)) ∧
          c = a ++ txs.reverse := ⟨_, rfl, hcsplit⟩
      have hclen : txs.length ≤ c.length := by
        rw [hca, List.length_append, List.length_reverse]
        omega
      have htake : c.take (c.length - txs.length) = a := by
        rw [hca, List.length_append, List.length_reverse, Nat.add_sub_cancel, List.take_left]
      refine ⟨txs.map some, ⟨items', index, some a⟩, ?_, ⟨hatn, hh, hindex, ?_⟩, txs, rfl, hlenTxs, htxs, hat,
        hlook', hlow⟩
      · simp [TxSortedMap.cap, hle, ← hsorted, hrun, hmap, hcap, nonceHeap, hi, hc, hclen, htake]
      · intro c' hc'
        cases hc'
        rw [ha]
        refine ⟨hlists.increasing.filter _, fun tx => ?_⟩
        rw [List.mem_filter, hlists.mem, decide_eq_true_iff]
        constructor
        · rintro ⟨hl, hk⟩
          rwa [hlook, if_neg fun hd => Nat.lt_irrefl _ (habove _ hk _ hd)]
        · intro hl
          have hs := (hkept (nonce tx)).mp (by rw [hl]; rfl)
          rw [hlook, if_neg fun hd => Nat.lt_irrefl _ (habove _ hs _ hd)] at hl
          exact ⟨hl, hs⟩

end Cap

/-! ### Remove and Ready -/

section Remove

/-- `Remove` deletes the transaction at `n`, if there is one, and keeps the invariant. -/
theorem Inv.remove (hm : m.Inv nonce) (n : ℕ) :
    ∃ m', m.remove n = some ((m.items.lookup n).isSome, m') ∧ m'.Inv nonce ∧
      ∀ k, m'.items.lookup k = if k = n then none else m.items.lookup k := by
  by_cases hn : m.items.lookup n = none
  · refine ⟨m, by simp [TxSortedMap.remove, hn], hm, fun k => ?_⟩
    split_ifs with hk
    · rw [hk, hn]
    · rfl
  have hnk : n ∈ m.items.keys := mem_keys_iff_lookup.mpr (Option.isSome_iff_ne_none.mpr hn)
  have hni : n ∈ m.index := hm.index.symm.subset hnk
  -- the search finds `n` in the heap
  cases hfind : m.index.findIdx? (· == n) with
  | none => exact absurd (List.findIdx?_eq_none_iff.mp hfind n hni) (by simp)
  | some i =>
      obtain ⟨hi, hin, -⟩ := List.findIdx?_eq_some_iff_getElem.mp hfind
      have hin' : m.index[i] = n := by simpa using hin
      obtain ⟨L', hr, hperm, hh⟩ := remove_spec hm.heap hi
      refine ⟨⟨m.items.erase n, L', none⟩, ?_, ⟨hm.atNonce.erase n, hh, ?_, by simp⟩, lookup_erase_eq _ _⟩
      · have hsome : (m.items.lookup n).isSome = true := Option.isSome_iff_ne_none.mpr hn
        simp [TxSortedMap.remove, hn, hfind, nonceHeap, hr, hsome]
      · rw [AList.keys_erase]
        rw [hin'] at hperm
        exact ((hperm.trans hm.index).trans (List.perm_cons_erase hnk)).cons_inv

end Remove

section Ready

variable {items : AList fun _ : ℕ => τ} {index : List ℕ} {next : ℕ} {rdy : List (Option τ)}

theorem readyLoop_pop {index' : List ℕ} {x : ℕ} (h0 : index[0]? = some next)
    (hp : Heap.pop nonceHeap index = some (x, index')) :
    readyLoop items index next rdy = readyLoop (items.erase next) index' (next + 1) (rdy ++ [items.lookup next]) := by
  rw [readyLoop, h0]
  simp only [if_true]
  split
  · rename_i hnone
    rw [hp] at hnone
    cases hnone
  · rename_i n' index'' hsome
    rw [hp] at hsome
    cases hsome
    rfl

theorem readyLoop_stop (h : ∀ least, index[0]? = some least → least ≠ next) :
    readyLoop items index next rdy = some (items, index, rdy) := by
  rw [readyLoop]
  cases h0 : index[0]? with
  | none => rfl
  | some least => simp [h least h0]

/-- The loop of `Ready` from `next`, below every key, pops the run of
consecutive nonces that starts there. -/
theorem readyLoop_spec {items : AList fun _ : ℕ => τ} {index : List ℕ} {next : ℕ} (ready : List (Option τ))
    (hh : IsHeap (· < ·) index) (hperm : index.Perm items.keys) (hat : AtNonce nonce items)
    (hge : ∀ n ∈ items.keys, next ≤ n) :
    ∃ (items' : AList fun _ : ℕ => τ) (index' : List ℕ) (txs : List τ),
      readyLoop items index next ready = some (items', index', ready ++ txs.map some) ∧
      IsHeap (· < ·) index' ∧ index'.Perm items'.keys ∧ AtNonce nonce items' ∧
      txs.map nonce = List.range' next txs.length ∧ next + txs.length ∉ items.keys ∧
      (∀ tx ∈ txs, items.lookup (nonce tx) = some tx) ∧
      ∀ n, items'.lookup n = if next ≤ n ∧ n < next + txs.length then none else items.lookup n := by
  by_cases hgo : index[0]? = some next
  · have hne : index ≠ [] := by
      rintro rfl
      simp at hgo
    obtain ⟨x, L', hp, hx, -, hxperm, hh'⟩ := pop_spec hh hne
    obtain rfl : x = next := Option.some_inj.mp (hx.symm.trans hgo)
    have hxk : x ∈ items.keys := hperm.subset (List.mem_of_getElem? hgo)
    obtain ⟨tx, htx⟩ := Option.isSome_iff_exists.mp (mem_keys_iff_lookup.mp hxk)
    have hnx : nonce tx = x := hat x tx htx
    have hperm' : L'.Perm (items.erase x).keys := by
      rw [AList.keys_erase]
      exact ((hxperm.trans hperm).trans (List.perm_cons_erase hxk)).cons_inv
    have hge' : ∀ n ∈ (items.erase x).keys, x + 1 ≤ n := by
      intro n hn
      rw [mem_keys_iff_lookup, lookup_erase_eq] at hn
      by_cases hnx' : n = x
      · rw [if_pos hnx'] at hn
        cases hn
      · rw [if_neg hnx'] at hn
        have := hge n (mem_keys_iff_lookup.mpr hn)
        omega
    obtain ⟨items', index', txs, hrun, hh'', hperm'', hat', hnonces, hend, htxs, hlook⟩ :=
      readyLoop_spec (ready ++ [items.lookup x]) hh' hperm' (hat.erase x) hge'
    refine ⟨items', index', tx :: txs, ?_, hh'', hperm'', hat', ?_, ?_, ?_, fun n => ?_⟩
    · rw [readyLoop_pop hgo hp, hrun, htx]
      simp
    · rw [List.map_cons, hnonces, hnx, List.length_cons, List.range'_succ]
    · rw [List.length_cons]
      intro hk
      apply hend
      rw [mem_keys_iff_lookup, lookup_erase_eq, if_neg (by omega)]
      rw [show x + 1 + txs.length = x + (txs.length + 1) by omega]
      exact mem_keys_iff_lookup.mp hk
    · intro tx' htx'
      rcases List.mem_cons.mp htx' with rfl | h
      · rw [hnx]
        exact htx
      · have := htxs tx' h
        rw [lookup_erase_eq] at this
        split_ifs at this
        exact this
    · rw [hlook, lookup_erase_eq, List.length_cons]
      by_cases h₁ : x ≤ n ∧ n < x + (txs.length + 1)
      · by_cases h₂ : n = x
        · rw [if_neg (by omega), if_pos h₂, if_pos h₁]
        · have h₃ : x + 1 ≤ n ∧ n < x + 1 + txs.length := by omega
          rw [if_pos h₃, if_pos h₁]
      · have h₃ : ¬ (x + 1 ≤ n ∧ n < x + 1 + txs.length) := by omega
        have h₂ : n ≠ x := by omega
        rw [if_neg h₃, if_neg h₂, if_neg h₁]
  · -- `next` is not a key: it would be the least nonce
    have hnext : next ∉ items.keys := by
      intro hk
      have hi : next ∈ index := hperm.symm.subset hk
      obtain ⟨least, h0⟩ : ∃ least, index[0]? = some least :=
        ⟨_, List.getElem?_eq_getElem (List.length_pos_of_mem hi)⟩
      have h1 := first_le hh h0 hi
      have h2 := hge least (hperm.subset (List.mem_of_getElem? h0))
      exact hgo (by rw [h0, show least = next by omega])
    refine ⟨items, index, [], ?_, hh, hperm, hat, rfl, by simpa using hnext, fun _ h => absurd h List.not_mem_nil,
      fun n => ?_⟩
    · rw [readyLoop_stop fun least h0 hl => hgo (by rw [← hl]; exact h0)]
      simp
    · simp
termination_by index.length
decreasing_by
  have := hxperm.length_eq
  simp only [List.length_cons] at this
  omega

/-- `Ready` keeps the invariant. When the least nonce is at most `start` it
returns the run of consecutive nonces from it, and nothing otherwise. -/
theorem Inv.ready (hm : m.Inv nonce) (start : ℕ) :
    ∃ rdy m', m.ready start = some (rdy, m') ∧ m'.Inv nonce ∧
      ∃ txs : List τ, rdy = txs.map some ∧ (∀ tx ∈ txs, m.items.lookup (nonce tx) = some tx) ∧
        (∀ n, m'.items.lookup n = if ∃ tx ∈ txs, nonce tx = n then none else m.items.lookup n) ∧
        ((∀ n ∈ m.items.keys, start < n) → txs = []) ∧
        ∀ least ∈ m.items.keys, (∀ n ∈ m.items.keys, least ≤ n) → least ≤ start →
          txs.map nonce = List.range' least txs.length ∧ least + txs.length ∉ m.items.keys := by
  -- two least keys are equal
  have hleast : ∀ a ∈ m.items.keys, ∀ b ∈ m.items.keys, (∀ n ∈ m.items.keys, a ≤ n) →
      (∀ n ∈ m.items.keys, b ≤ n) → a = b := fun a ha b hb h₁ h₂ =>
    Nat.le_antisymm (h₁ b hb) (h₂ a ha)
  have hnothing : ∃ txs : List τ, ([] : List (Option τ)) = txs.map some ∧
      (∀ tx ∈ txs, m.items.lookup (nonce tx) = some tx) ∧
      (∀ n, m.items.lookup n = if ∃ tx ∈ txs, nonce tx = n then none else m.items.lookup n) ∧
      ((∀ n ∈ m.items.keys, start < n) → txs = []) :=
    ⟨[], rfl, fun _ h => absurd h List.not_mem_nil, fun n => by simp, fun _ => rfl⟩
  cases h0 : m.index[0]? with
  | none =>
      -- no key at all
      have hempty : m.items.keys = [] := by
        rw [List.getElem?_eq_none_iff, Nat.le_zero, List.length_eq_zero_iff] at h0
        exact List.eq_nil_of_length_eq_zero (hm.index.length_eq ▸ by rw [h0]; rfl)
      obtain ⟨txs, h₁, h₂, h₃, h₄⟩ := hnothing
      refine ⟨[], m, by simp [TxSortedMap.ready, h0], hm, txs, h₁, h₂, h₃, h₄, fun least hl => ?_⟩
      rw [hempty] at hl
      exact absurd hl List.not_mem_nil
  | some least =>
      have hlk : least ∈ m.items.keys := hm.index.subset (List.mem_of_getElem? h0)
      have hmin : ∀ n ∈ m.items.keys, least ≤ n := fun n hn => first_le hm.heap h0 (hm.index.symm.subset hn)
      by_cases hs : start < least
      · obtain ⟨txs, h₁, h₂, h₃, h₄⟩ := hnothing
        refine ⟨[], m, by simp [TxSortedMap.ready, h0, hs], hm, txs, h₁, h₂, h₃, h₄, fun l hl hlmin hle => ?_⟩
        rw [hleast l hl least hlk hlmin hmin] at hle
        omega
      · obtain ⟨items', index', txs, hrun, hh, hperm, hat, hnonces, hend, htxs, hlook⟩ :=
          readyLoop_spec [] hm.heap hm.index hm.atNonce hmin
        rw [List.nil_append] at hrun
        refine ⟨txs.map some, ⟨items', index', none⟩, by simp [TxSortedMap.ready, h0, hs, hrun],
          ⟨hat, hh, hperm, by simp⟩, txs, rfl, htxs, fun n => ?_, fun hall => ?_, fun l hl hlmin _ => ?_⟩
        · rw [hlook]
          refine if_congr ?_ rfl rfl
          rw [← List.mem_range'_1, ← hnonces, List.mem_map]
        · exact absurd (hall least hlk) hs
        · rw [hleast l hl least hlk hlmin hmin]
          exact ⟨hnonces, hend⟩

end Ready

/-! ### Flatten -/

section Flatten

/-- `flatten` lists the transactions by strictly increasing nonce and caches the list. -/
theorem Inv.flatten (hm : m.Inv nonce) {order : List (Σ _ : ℕ, τ)} (ho : order.Perm m.items.entries) :
    ListsByNonce nonce m.items (m.flatten nonce order).1 ∧ (m.flatten nonce order).2.Inv nonce ∧
      (m.flatten nonce order).2.items = m.items := by
  cases hc : m.cache with
  | some c =>
      simp only [TxSortedMap.flatten, hc]
      refine ⟨hm.cache c (by rw [hc]; rfl), hm, ?_⟩
      trivial
  | none =>
      simp only [TxSortedMap.flatten, hc]
      have hentry : ∀ e ∈ order, m.items.lookup e.1 = some e.2 := fun e he =>
        AList.mem_lookup_iff.mpr (ho.subset he)
      set c := (order.map Sigma.snd).mergeSort fun a b => decide (nonce a ≤ nonce b) with hcdef
      have hperm : c.Perm (order.map Sigma.snd) := List.mergeSort_perm _ _
      -- the nonces of the list are the keys, each once
      have hkeys : (c.map nonce).Perm m.items.keys := by
        have hfst : (order.map Sigma.snd).map nonce = order.map Sigma.fst := by
          rw [List.map_map]
          exact List.map_congr_left fun e he => hm.atNonce e.1 e.2 (hentry e he)
        have h₁ := hperm.map nonce
        rw [hfst] at h₁
        exact h₁.trans (ho.map Sigma.fst)
      have hle := @List.pairwise_mergeSort τ (fun a b => decide (nonce a ≤ nonce b))
        (fun a b c hab hbc => by simp only [decide_eq_true_eq] at *; omega)
        (fun a b => by simp only [Bool.or_eq_true, decide_eq_true_eq]; omega) (order.map Sigma.snd)
      have hne : c.Pairwise fun a b => nonce a ≠ nonce b :=
        List.pairwise_map.mp (hkeys.nodup_iff.mpr m.items.keys_nodup)
      have hlists : ListsByNonce nonce m.items c := by
        refine ⟨(hle.and hne).imp fun h => Nat.lt_of_le_of_ne (of_decide_eq_true h.1) h.2, fun tx => ?_⟩
        rw [hperm.mem_iff, List.mem_map]
        constructor
        · rintro ⟨e, he, rfl⟩
          rw [hm.atNonce e.1 e.2 (hentry e he)]
          exact hentry e he
        · intro hl
          exact ⟨⟨nonce tx, tx⟩, ho.symm.subset (AList.mem_lookup_iff.mp hl), rfl⟩
      refine ⟨hlists, ⟨hm.atNonce, hm.heap, hm.index, ?_⟩, trivial⟩
      intro c' hc'
      cases hc'
      exact hlists

/-- `LastElement` answers the transaction of the highest nonce. -/
theorem Inv.lastElement (hm : m.Inv nonce) {order : List (Σ _ : ℕ, τ)} (ho : order.Perm m.items.entries)
    {tx : τ} {m' : TxSortedMap τ} (h : m.lastElement nonce order = some (tx, m')) :
    m'.Inv nonce ∧ m.items.lookup (nonce tx) = some tx ∧ ∀ n ∈ m.items.keys, n ≤ nonce tx := by
  obtain ⟨hlists, hinv, -⟩ := hm.flatten ho
  simp only [TxSortedMap.lastElement, Option.map_eq_some_iff, Prod.mk.injEq] at h
  obtain ⟨tx', hlast, rfl, rfl⟩ := h
  obtain ⟨ys, hys⟩ := List.getLast?_eq_some_iff.mp hlast
  have hmem : tx' ∈ (m.flatten nonce order).1 := by
    rw [hys]
    exact List.mem_append_right _ List.mem_cons_self
  refine ⟨hinv, (hlists.mem tx').mp hmem, fun n hn => ?_⟩
  obtain ⟨tx'', htx''⟩ := Option.isSome_iff_exists.mp (mem_keys_iff_lookup.mp hn)
  have hn' := hm.atNonce n tx'' htx''
  have hmem' : tx'' ∈ (m.flatten nonce order).1 := (hlists.mem tx'').mpr (hn' ▸ htx'')
  rw [← hn']
  -- the last entry of an increasing list is its highest
  rw [hys] at hmem' 
  have hinc := hlists.increasing
  rw [hys] at hinc
  rcases List.mem_append.mp hmem' with h | h
  · exact Nat.le_of_lt (hinc.rel_of_mem_append h List.mem_cons_self)
  · rw [List.mem_singleton.mp h]

end Flatten

/-! ### Runs -/

section Runs

theorem capLoop_neg {threshold : ℤ} (hneg : threshold < 0) (sorted : List ℕ) :
    ∀ (size : ℕ) (items : AList fun _ : ℕ => τ) (drops : List (Option τ)),
      capLoop threshold sorted size items drops = none
  | 0, items, drops => by simp [capLoop, hneg]
  | size + 1, items, drops => by
      rw [capLoop, if_pos (by omega)]
      cases sorted[size]? with
      | none => rfl
      | some n => exact capLoop_neg hneg sorted size _ _

/-- Every call keeps the invariant, `Cap` of a negative threshold being a panic. -/
theorem Inv.apply (hm : m.Inv nonce) {op : Op τ} (hf : op.Fits m) {m' : TxSortedMap τ}
    (h : op.apply nonce m = some m') : m'.Inv nonce := by
  cases op with
  | put tx =>
      obtain ⟨m'', hp, hinv, -⟩ := hm.put tx
      rw [Op.apply, hp, Option.some_inj] at h
      exact h ▸ hinv
  | forward threshold =>
      obtain ⟨removed, m'', hp, hinv, -⟩ := hm.forward threshold
      rw [Op.apply, hp, Option.map_some, Option.some_inj] at h
      exact h ▸ hinv
  | filter f order₁ order₂ =>
      obtain ⟨removed, m'', hp, hinv, -⟩ := hm.filter f hf.1 hf.2
      rw [Op.apply, hp, Option.map_some, Option.some_inj] at h
      exact h ▸ hinv
  | filterReheap f order₁ order₂ =>
      obtain ⟨m'', hp, hinv⟩ := hm.filterReheap f hf.1 hf.2
      rw [Op.apply, hp, Option.some_inj] at h
      exact h ▸ hinv
  | cap threshold =>
      by_cases hneg : threshold < 0
      · -- at size `0` Go reads `(*m.index)[-1]`
        have hlen : ¬ (m.len : ℤ) ≤ threshold := by omega
        simp [Op.apply, TxSortedMap.cap, hlen, capLoop_neg hneg] at h
      · obtain ⟨k, rfl⟩ := Int.eq_ofNat_of_zero_le (Int.not_lt.mp hneg)
        obtain ⟨drops, m'', hp, hinv, -⟩ := hm.cap k
        rw [Op.apply, hp, Option.map_some, Option.some_inj] at h
        exact h ▸ hinv
  | remove n =>
      obtain ⟨m'', hp, hinv, -⟩ := hm.remove n
      rw [Op.apply, hp, Option.map_some, Option.some_inj] at h
      exact h ▸ hinv
  | ready start =>
      obtain ⟨rdy, m'', hp, hinv, -⟩ := hm.ready start
      rw [Op.apply, hp, Option.map_some, Option.some_inj] at h
      exact h ▸ hinv
  | flatten order =>
      rw [Op.apply, Option.some_inj] at h
      exact h ▸ (hm.flatten hf).2.1
  | lastElement order =>
      obtain ⟨⟨tx, m''⟩, hl, rfl⟩ := Option.map_eq_some_iff.mp h
      exact (hm.lastElement hf hl).1

theorem Reachable.inv (hr : m.Reachable nonce) : m.Inv nonce := by
  induction hr with
  | new => exact inv_new
  | step _ hf hp ih => exact ih.apply hf hp

theorem Reachable.put (hr : m.Reachable nonce) (tx : τ) :
    ∃ m', m.put nonce tx = some m' ∧ m'.Reachable nonce ∧ m'.items = m.items.insert (nonce tx) tx := by
  obtain ⟨m', hp, -, hitems⟩ := hr.inv.put tx
  exact ⟨m', hp, .step hr (show (Op.put tx).Fits m from trivial) hp, hitems⟩

end Runs

end Invariant

/-- From `newTxSortedMap`, every call keeps `index` a min-heap of the nonces of
`items`, each once, and a cache the transactions by strictly increasing nonce.
`Forward`, `Filter`, `Cap` and `Ready` return exactly what they delete. -/
theorem sorted_map_representation (nonce : τ → ℕ) :
    (∀ m : TxSortedMap τ, m.Reachable nonce →
      IsHeap (· < ·) m.index ∧ m.index.Perm m.items.keys ∧ ∀ c ∈ m.cache, ListsByNonce nonce m.items c) ∧
    (∀ m : TxSortedMap τ, m.Reachable nonce → ∀ threshold, ∃ removed m', m.forward threshold = some (removed, m') ∧
      (∀ n, m'.items.lookup n = if n < threshold then none else m.items.lookup n) ∧
      ∃ txs : List τ, removed = txs.map some ∧ txs.Pairwise (fun a b => nonce a < nonce b) ∧
        ∀ tx, tx ∈ txs ↔ m.items.lookup (nonce tx) = some tx ∧ nonce tx < threshold) ∧
    (∀ m : TxSortedMap τ, m.Reachable nonce → ∀ (f : τ → Bool) (order₁ : List (Σ _ : ℕ, τ)) (order₂ : List ℕ),
      order₁.Perm m.items.entries → order₂.Perm (m.filterNoReheap f order₁).2.items.keys →
      ∃ removed m', m.filter f order₁ order₂ = some (removed, m') ∧ removed.Nodup ∧
        (∀ tx, tx ∈ removed ↔ m.items.lookup (nonce tx) = some tx ∧ f tx = true) ∧
        ∀ n, m'.items.lookup n = if ∃ tx, m.items.lookup n = some tx ∧ f tx = true then none else m.items.lookup n) ∧
    (∀ m : TxSortedMap τ, m.Reachable nonce → ∀ threshold : ℕ, ∃ drops m', m.cap threshold = some (drops, m') ∧
      ∃ txs : List τ, drops = txs.map some ∧ txs.length = m.len - threshold ∧
        txs.Pairwise (fun a b => nonce b < nonce a) ∧ (∀ tx ∈ txs, m.items.lookup (nonce tx) = some tx) ∧
        (∀ n, m'.items.lookup n = if ∃ tx ∈ txs, nonce tx = n then none else m.items.lookup n) ∧
        ∀ n ∈ m'.items.keys, ∀ tx ∈ txs, n < nonce tx) ∧
    (∀ m : TxSortedMap τ, m.Reachable nonce → ∀ start, ∃ rdy m', m.ready start = some (rdy, m') ∧
      ∃ txs : List τ, rdy = txs.map some ∧ (∀ tx ∈ txs, m.items.lookup (nonce tx) = some tx) ∧
        (∀ n, m'.items.lookup n = if ∃ tx ∈ txs, nonce tx = n then none else m.items.lookup n) ∧
        ((∀ n ∈ m.items.keys, start < n) → txs = []) ∧
        ∀ least ∈ m.items.keys, (∀ n ∈ m.items.keys, least ≤ n) → least ≤ start →
          txs.map nonce = List.range' least txs.length ∧ least + txs.length ∉ m.items.keys) := by
  refine ⟨fun m hr => ?_, fun m hr threshold => ?_, fun m hr f order₁ order₂ h₁ h₂ => ?_,
    fun m hr threshold => ?_, fun m hr start => ?_⟩
  · have hm := hr.inv
    exact ⟨hm.heap, hm.index, hm.cache⟩
  · obtain ⟨removed, m', hp, -, hlook, hspec⟩ := hr.inv.forward threshold
    exact ⟨removed, m', hp, hlook, hspec⟩
  · obtain ⟨removed, m', hp, -, hspec⟩ := hr.inv.filter f h₁ h₂
    exact ⟨removed, m', hp, hspec⟩
  · obtain ⟨drops, m', hp, -, hspec⟩ := hr.inv.cap threshold
    exact ⟨drops, m', hp, hspec⟩
  · obtain ⟨rdy, m', hp, -, hspec⟩ := hr.inv.ready start
    exact ⟨rdy, m', hp, hspec⟩

/-- Nonces 6, 3 and 4 put in that order: the heap starts at 3, `Forward(4)`
removes 3, a `Filter` of 4 removes 4, `Cap(1)` drops 6 and then 4, and
`Ready(3)` returns 3 and 4 and stops at the gap below 6. -/
theorem sorted_map_representation_three :
    ∃ m : TxSortedMap ℕ, m.Reachable id ∧ m.items.keys = [4, 3, 6] ∧ m.index[0]? = some 3 ∧
      (∃ m', m.forward 4 = some ([some 3], m')) ∧
      (∃ m', m.filter (· == 4) m.items.entries [3, 6] = some ([4], m')) ∧
      (∃ m', m.cap 1 = some ([some 6, some 4], m')) ∧
      ∃ m', m.ready 3 = some ([some 3, some 4], m') := by
  obtain ⟨m₁, -, hr₁, hi₁⟩ := (@Reachable.new ℕ id).put 6
  obtain ⟨m₂, -, hr₂, hi₂⟩ := hr₁.put 3
  obtain ⟨m, -, hr, hi⟩ := hr₂.put 4
  have hitems : m.items = (((∅ : AList fun _ : ℕ => ℕ).insert 6 6).insert 3 3).insert 4 4 := by
    rw [hi, hi₂, hi₁]
    rfl
  have hkeys : m.items.keys = [4, 3, 6] := by
    rw [hitems]
    rfl
  have hlook : ∀ n, m.items.lookup n = if n = 4 ∨ n = 3 ∨ n = 6 then some n else none := by
    intro n
    rw [hitems, lookup_insert_eq, lookup_insert_eq, lookup_insert_eq]
    by_cases h4 : n = 4 <;> by_cases h3 : n = 3 <;> by_cases h6 : n = 6 <;> simp_all
  obtain ⟨hrep, hfwd, hfil, hcap, hrdy⟩ := sorted_map_representation (id : ℕ → ℕ)
  refine ⟨m, hr, hkeys, ?_, ?_, ?_, ?_, ?_⟩
  · -- the first nonce of the heap is at most every other one
    obtain ⟨hh, hperm, -⟩ := hrep m hr
    rw [hkeys] at hperm
    obtain ⟨a, ha⟩ : ∃ a, m.index[0]? = some a := by
      cases hidx : m.index with
      | nil => simp [hidx] at hperm
      | cons a _ => exact ⟨a, rfl⟩
    have hle := first_le hh ha (hperm.mem_iff.mpr (by simp) : 3 ∈ m.index)
    have hmem : a ∈ [4, 3, 6] := hperm.mem_iff.mp (List.mem_of_getElem? ha)
    simp only [List.mem_cons, List.not_mem_nil, or_false] at hmem
    rw [ha]
    congr 1
    omega
  · obtain ⟨removed, m', hp, -, txs, rfl, hinc, hmem⟩ := hfwd m hr 4
    have htxs : txs = [3] := by
      apply List.perm_singleton.mp
      rw [List.perm_ext_iff_of_nodup (nodup_of_increasing hinc) (List.nodup_singleton 3)]
      intro tx
      rw [hmem, id, hlook, List.mem_singleton]
      split_ifs with h
      · simp only [true_and]
        omega
      · simp only [false_and, false_iff]
        omega
    exact ⟨m', by rw [hp, htxs]; rfl⟩
  · have horder : [3, 6].Perm (m.filterNoReheap (· == 4) m.items.entries).2.items.keys := by
      show [3, 6].Perm (filterLoop (· == 4) m.items.entries m.items []).1.keys
      rw [hitems]
      decide
    obtain ⟨removed, m', hp, hnd, hmem, -⟩ := hfil m hr (· == 4) m.items.entries [3, 6] (List.Perm.refl _) horder
    have hrem : removed = [4] := by
      apply List.perm_singleton.mp
      rw [List.perm_ext_iff_of_nodup hnd (List.nodup_singleton 4)]
      intro tx
      rw [hmem, id, hlook]
      by_cases h : tx = 4 <;> simp [h]
    exact ⟨m', by rw [hp, hrem]⟩
  · obtain ⟨drops, m', hp, txs, rfl, hlen, hdec, hin, hlook', hlow⟩ := hcap m hr 1
    obtain ⟨a, b, rfl⟩ := List.length_eq_two.mp (by rw [hlen, len, hkeys]; rfl)
    have ha := hin a (by simp)
    have hb := hin b (by simp)
    rw [id, hlook] at ha hb
    have hba : b < a := by simpa using hdec
    -- a nonce left in the map lies below both dropped ones
    have hleft : ∀ k, (k = 4 ∨ k = 3 ∨ k = 6) → k ≠ a → k ≠ b → k < b := fun k hk hka hkb =>
      hlow k (mem_keys_of_lookup (show m'.items.lookup k = some k by
        rw [hlook', if_neg (by simp; omega), hlook, if_pos hk])) b (by simp)
    have ha' : a = 4 ∨ a = 3 ∨ a = 6 := by by_contra h; simp [h] at ha
    have hb' : b = 4 ∨ b = 3 ∨ b = 6 := by by_contra h; simp [h] at hb
    obtain rfl : b = 4 := by
      rcases hb' with rfl | rfl | rfl
      · rfl
      · -- with 3 dropped, the one of 4 and 6 left stays below it
        by_cases ha4 : a = 4
        · have := hleft 6 (by simp) (by omega) (by omega)
          omega
        · have := hleft 4 (by simp) (Ne.symm ha4) (by omega)
          omega
      · omega
    obtain rfl : a = 6 := by omega
    exact ⟨m', hp⟩
  · obtain ⟨rdy, m', hp, txs, rfl, hin, -, -, hrun⟩ := hrdy m hr 3
    obtain ⟨hrange, hnext⟩ := hrun 3 (by rw [hkeys]; simp) (by intro n hn; rw [hkeys] at hn; simp at hn; omega)
      le_rfl
    rw [List.map_id] at hrange
    have h5 : (5 : ℕ) ∉ txs := fun h => by
      have := hin 5 h
      rw [id, hlook] at this
      simp at this
    have hlen : txs.length = 2 := by
      have : ¬ 3 ≤ txs.length := fun h3 => h5 (by rw [hrange, List.mem_range']; exact ⟨2, by omega, rfl⟩)
      rw [hkeys] at hnext
      simp only [List.mem_cons, List.not_mem_nil, or_false, not_or] at hnext
      omega
    rw [hlen] at hrange
    exact ⟨m', by rw [hp, hrange]; rfl⟩

end TxSortedMap

end GoQuai.TxList
