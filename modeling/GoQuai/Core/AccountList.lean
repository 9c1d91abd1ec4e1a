import GoQuai.Core.TxList
import Mathlib

/-! # The per-account transaction list of core/tx_list.go

`txList` wraps a `txSortedMap` with a `strict` flag and two caps: `costcap`, the
highest cost among the transactions added since the caps were last lowered, and
`gascap`, the highest gas. `Filter` trusts the caps. When both are within the
limits, it returns at once without looking at any transaction.

A transaction is read through `TxFields`: its nonce, fee cap, tip, gas and
`Cost`. Fee caps, tips and costs are `big.Int`s that are never negative on a
decoded transaction, so they are natural numbers here. The replacement threshold
of `Add` is an integer, because `100 + int64(priceBump)` wraps in `int64`.
`Filter` and `Remove` go through the `Filter`, `filter` and `reheap` of
`txSortedMap`. Their `range`s take the orders as arguments, as in
`GoQuai.Core.TxList`.

`Inv` is the sorted map's invariant plus "the caps bound every transaction held".
`newTxList` has it, and every call keeps it (`Reachable.inv`). With it, `Filter`
removes exactly the transactions over a limit, whether or not it takes the short
circuit (`filter_spec`).
-/

namespace GoQuai.TxPool

open GoQuai.TxList

/-- What `txList` reads of a transaction: `Nonce`, `GasFeeCap`, `GasTipCap`,
`Gas` and `Cost`. -/
structure TxFields (τ : Type) where
  nonce : τ → ℕ
  gasFeeCap : τ → ℕ
  gasTipCap : τ → ℕ
  gas : τ → ℕ
  cost : τ → ℕ

/-- `txList`. -/
structure TxList (τ : Type) where
  strict : Bool
  txs : TxSortedMap τ
  costcap : ℕ
  gascap : ℕ

namespace TxList

variable {τ : Type}

/-- `newTxList`. -/
def new (strict : Bool) : TxList τ := ⟨strict, .new, 0, 0⟩

/-- `Len`. -/
def len (l : TxList τ) : ℕ := l.txs.len

/-- `Empty`. -/
def empty (l : TxList τ) : Bool := l.len == 0

/-- `big.NewInt(100 + int64(priceBump))`: the sum is an `int64`, which wraps. -/
def bumpFactor (priceBump : ℕ) : ℤ := Int.bmod (100 + priceBump) (2 ^ 64)

/-- `old * (100 + priceBump) / 100`, with the Euclidean `Div` of `big.Int`. -/
def bumpThreshold (priceBump old : ℕ) : ℤ := bumpFactor priceBump * old / 100

section Calls

variable (F : TxFields τ)

/-- `Overlaps`. -/
def overlaps (tx : τ) (l : TxList τ) : Bool := (l.txs.get (F.nonce tx)).isSome

/-- The end of `Add`: `Put`, then raise each cap that the transaction exceeds. -/
def overwrite (tx : τ) (old : Option τ) (l : TxList τ) : Option ((Bool × Option τ) × TxList τ) :=
  (l.txs.put F.nonce tx).map fun txs =>
    ((true, old), { l with
      txs
      costcap := if l.costcap < F.cost tx then F.cost tx else l.costcap
      gascap := if l.gascap < F.gas tx then F.gas tx else l.gascap })

/-- `Add`: a transaction at a taken nonce must raise both the fee cap and the
tip, each to at least `priceBump` percent above the old one. -/
def add (tx : τ) (priceBump : ℕ) (l : TxList τ) : Option ((Bool × Option τ) × TxList τ) :=
  match l.txs.get (F.nonce tx) with
  | none => l.overwrite F tx none
  | some old =>
      if F.gasFeeCap old ≥ F.gasFeeCap tx ∨ F.gasTipCap old ≥ F.gasTipCap tx then some ((false, none), l)
      else if (F.gasFeeCap tx : ℤ) < bumpThreshold priceBump (F.gasFeeCap old) ∨
          (F.gasTipCap tx : ℤ) < bumpThreshold priceBump (F.gasTipCap old) then some ((false, none), l)
      else l.overwrite F tx (some old)

/-- `Forward`. -/
def forward (threshold : ℕ) (l : TxList τ) : Option (List (Option τ) × TxList τ) :=
  (l.txs.forward threshold).map fun (removed, txs) => (removed, { l with txs })

/-- The test of `Filter`: gas above `gasLimit` or cost above `costLimit`. -/
def exceeds (costLimit gasLimit : ℕ) (tx : τ) : Bool :=
  decide (F.gas tx > gasLimit) || decide (F.cost tx > costLimit)

/-- One round of the loop of `Filter` over the removed transactions. -/
def lowerTo (lowest : ℕ) (tx : τ) : ℕ := if lowest > F.nonce tx then F.nonce tx else lowest

/-- The loop of `Filter` over the removed transactions, from `math.MaxUint64`. -/
def lowestNonce (removed : List τ) : ℕ := removed.foldl (lowerTo F) (2 ^ 64 - 1)

/-- `Filter`. `order₁` and `order₂` are the `range`s of `txs.Filter` and of its
`reheap`, `order₃` is the `range` of the strict `filter`, and `order₄` that of
the last `reheap`. -/
def filter (costLimit gasLimit : ℕ) (order₁ : List (Σ _ : ℕ, τ)) (order₂ : List ℕ)
    (order₃ : List (Σ _ : ℕ, τ)) (order₄ : List ℕ) (l : TxList τ) :
    Option ((List τ × List τ) × TxList τ) :=
  if l.costcap ≤ costLimit ∧ l.gascap ≤ gasLimit then some (([], []), l)
  else
    -- the caps are lowered to the limits before anything is removed
    (l.txs.filter (exceeds F costLimit gasLimit) order₁ order₂).bind fun (removed, txs) =>
      if removed.length = 0 then some (([], []), ⟨l.strict, txs, costLimit, gasLimit⟩)
      else
        let r := if l.strict then
            txs.filterNoReheap (fun tx => decide (F.nonce tx > lowestNonce F removed)) order₃
          else ([], txs)
        (r.2.reheap order₄).map fun txs => ((removed, r.1), ⟨l.strict, txs, costLimit, gasLimit⟩)

/-- `Cap`. -/
def cap (threshold : ℤ) (l : TxList τ) : Option (List (Option τ) × TxList τ) :=
  (l.txs.cap threshold).map fun (drops, txs) => (drops, { l with txs })

/-- `Remove`: in strict mode the transactions above the removed nonce go too.
`order₁` and `order₂` are the `range`s of that `Filter`. -/
def remove (tx : τ) (order₁ : List (Σ _ : ℕ, τ)) (order₂ : List ℕ) (l : TxList τ) :
    Option ((Bool × List τ) × TxList τ) :=
  (l.txs.remove (F.nonce tx)).bind fun (removed, txs) =>
    if !removed then some ((false, []), l)
    else if l.strict then
      (txs.filter (fun tx' => decide (F.nonce tx' > F.nonce tx)) order₁ order₂).map fun (invalids, txs) =>
        ((true, invalids), { l with txs })
    else some ((true, []), { l with txs })

/-- `Ready`. -/
def ready (start : ℕ) (l : TxList τ) : Option (List (Option τ) × TxList τ) :=
  (l.txs.ready start).map fun (rdy, txs) => (rdy, { l with txs })

/-- `Flatten`. -/
def flatten (order : List (Σ _ : ℕ, τ)) (l : TxList τ) : List τ × TxList τ :=
  let r := l.txs.flatten F.nonce order
  (r.1, { l with txs := r.2 })

/-- `LastElement`. -/
def lastElement (order : List (Σ _ : ℕ, τ)) (l : TxList τ) : Option (τ × TxList τ) :=
  (l.txs.lastElement F.nonce order).map fun (tx, txs) => (tx, { l with txs })

end Calls

/-- The calls that change a `txList`, with the orders their `range`s take. -/
inductive Op (τ : Type)
  | add (tx : τ) (priceBump : ℕ)
  | forward (threshold : ℕ)
  | filter (costLimit gasLimit : ℕ) (order₁ : List (Σ _ : ℕ, τ)) (order₂ : List ℕ)
      (order₃ : List (Σ _ : ℕ, τ)) (order₄ : List ℕ)
  | cap (threshold : ℤ)
  | remove (tx : τ) (order₁ : List (Σ _ : ℕ, τ)) (order₂ : List ℕ)
  | ready (start : ℕ)
  | flatten (order : List (Σ _ : ℕ, τ))
  | lastElement (order : List (Σ _ : ℕ, τ))

section Runs

variable (F : TxFields τ)

/-- A call, its answer dropped. -/
def Op.apply : Op τ → TxList τ → Option (TxList τ)
  | .add tx priceBump, l => (l.add F tx priceBump).map Prod.snd
  | .forward threshold, l => (l.forward threshold).map Prod.snd
  | .filter costLimit gasLimit order₁ order₂ order₃ order₄, l =>
      (l.filter F costLimit gasLimit order₁ order₂ order₃ order₄).map Prod.snd
  | .cap threshold, l => (l.cap threshold).map Prod.snd
  | .remove tx order₁ order₂, l => (l.remove F tx order₁ order₂).map Prod.snd
  | .ready start, l => (l.ready start).map Prod.snd
  | .flatten order, l => some (l.flatten F order).2
  | .lastElement order, l => (l.lastElement F order).map Prod.snd

/-- The orders are ones a `range` can take. For `Filter` they list the entries
before and after its first filter, and the keys left after each filter. -/
def Op.Fits (l : TxList τ) : Op τ → Prop
  | .filter costLimit gasLimit order₁ order₂ order₃ order₄ =>
      let r₁ := TxSortedMap.filterLoop (exceeds F costLimit gasLimit) order₁ l.txs.items []
      let r₂ := TxSortedMap.filterLoop (fun tx => decide (F.nonce tx > lowestNonce F r₁.2)) order₃ r₁.1 []
      order₁.Perm l.txs.items.entries ∧ order₂.Perm r₁.1.keys ∧ order₃.Perm r₁.1.entries ∧
        order₄.Perm (if l.strict then r₂.1 else r₁.1).keys
  | .remove tx order₁ order₂ =>
      order₁.Perm (l.txs.items.erase (F.nonce tx)).entries ∧
        order₂.Perm (TxSortedMap.filterLoop (fun tx' => decide (F.nonce tx' > F.nonce tx)) order₁
          (l.txs.items.erase (F.nonce tx)) []).1.keys
  | .flatten order => order.Perm l.txs.items.entries
  | .lastElement order => order.Perm l.txs.items.entries
  | _ => True

/-- The lists a caller reaches from `newTxList`. -/
inductive Reachable : TxList τ → Prop
  | new (strict : Bool) : Reachable (new strict)
  | step {l l' : TxList τ} {op : Op τ} : Reachable l → op.Fits F l → op.apply F l = some l' → Reachable l'

end Runs

/-! ## The invariant -/

section Invariant

variable (F : TxFields τ)

/-- The invariant of `txList`: the sorted map's, and caps that bound the cost
and the gas of every transaction held. -/
structure Inv (l : TxList τ) : Prop where
  sorted : l.txs.Inv F.nonce
  caps : ∀ n tx, l.txs.get n = some tx → F.cost tx ≤ l.costcap ∧ F.gas tx ≤ l.gascap

variable {F} {l : TxList τ}

theorem inv_new (strict : Bool) : (new strict : TxList τ).Inv F where
  sorted := TxSortedMap.inv_new
  caps n tx h := by simp [new, TxSortedMap.new, TxSortedMap.get] at h

/-- A call that keeps the caps and only deletes keeps the invariant. -/
theorem Inv.of_sub (hl : l.Inv F) {l' : TxList τ} (hs : l'.txs.Inv F.nonce) (hc : l'.costcap = l.costcap)
    (hg : l'.gascap = l.gascap) (hsub : ∀ n tx, l'.txs.get n = some tx → l.txs.get n = some tx) :
    l'.Inv F :=
  ⟨hs, fun n tx h => hc ▸ hg ▸ hl.caps n tx (hsub n tx h)⟩

theorem get_sub_of_ite {m m' : TxSortedMap τ} {p : ℕ → Prop} [DecidablePred p]
    (h : ∀ n, m'.items.lookup n = if p n then none else m.items.lookup n) :
    ∀ n tx, m'.get n = some tx → m.get n = some tx := by
  intro n tx h'
  rw [TxSortedMap.get, h n] at h'
  split_ifs at h'
  exact h'

/-- What a filtered map holds, read off its lookup equation. -/
theorem get_iff_of_filtered {m m' : TxSortedMap τ} {p : τ → Bool}
    (h : ∀ n, m'.items.lookup n = if ∃ tx, m.items.lookup n = some tx ∧ p tx = true then none else m.items.lookup n)
    (n : ℕ) (tx : τ) : m'.get n = some tx ↔ m.get n = some tx ∧ p tx = false := by
  rw [TxSortedMap.get, TxSortedMap.get, h n]
  split_ifs with hex
  · obtain ⟨tx', hl, hp⟩ := hex
    constructor
    · intro hnone
      cases hnone
    · rintro ⟨hl', hp'⟩
      rw [hl', Option.some_inj] at hl
      rw [hl, hp] at hp'
      cases hp'
  · constructor
    · intro hl
      refine ⟨hl, ?_⟩
      cases hp : p tx
      · rfl
      · exact absurd ⟨tx, hl, hp⟩ hex
    · exact fun h => h.1

end Invariant

/-! ## Add -/

section Add

variable {F : TxFields τ} {l : TxList τ}

theorem bumpFactor_of_lt {priceBump : ℕ} (h : 100 + priceBump < 2 ^ 63) :
    bumpFactor priceBump = 100 + priceBump := by
  have h₁ : (100 + priceBump : ℤ) % ((2 ^ 64 : ℕ) : ℤ) = 100 + priceBump :=
    Int.emod_eq_of_lt (by omega) (by push_cast; omega)
  have h₂ : (100 + priceBump : ℤ) < (((2 ^ 64 : ℕ) : ℤ) + 1) / 2 := by push_cast; omega
  -- `unfold`, not `rw`: a closing `rfl` would evaluate `2 ^ 64`
  unfold bumpFactor
  rw [Int.bmod_def, h₁, if_pos h₂]

/-- Without the `int64` wrap, the threshold is the old value raised by
`priceBump` percent, rounded down. -/
theorem bumpThreshold_of_lt {priceBump : ℕ} (h : 100 + priceBump < 2 ^ 63) (old : ℕ) :
    bumpThreshold priceBump old = (((100 + priceBump) * old / 100 : ℕ) : ℤ) := by
  rw [bumpThreshold, bumpFactor_of_lt h]
  push_cast
  rfl

theorem Inv.overwrite (hl : l.Inv F) (tx : τ) (old : Option τ) :
    ∃ l', l.overwrite F tx old = some ((true, old), l') ∧ l'.Inv F ∧ l'.strict = l.strict ∧
      (∀ n, l'.txs.get n = if n = F.nonce tx then some tx else l.txs.get n) ∧
      F.cost tx ≤ l'.costcap ∧ F.gas tx ≤ l'.gascap := by
  obtain ⟨m', hp, hinv, hitems⟩ := hl.sorted.put tx
  have hget : ∀ n, m'.get n = if n = F.nonce tx then some tx else l.txs.get n := fun n => by
    rw [TxSortedMap.get, hitems, TxSortedMap.lookup_insert_eq]
    rfl
  refine ⟨{ l with
      txs := m'
      costcap := if l.costcap < F.cost tx then F.cost tx else l.costcap
      gascap := if l.gascap < F.gas tx then F.gas tx else l.gascap },
    by rw [TxList.overwrite, hp, Option.map_some], ⟨hinv, fun n tx' h => ?_⟩, rfl, hget, ?_, ?_⟩
  · rw [hget] at h
    dsimp only
    split_ifs at h with hn
    · cases h
      constructor <;> split_ifs <;> omega
    · have := hl.caps n tx' h
      constructor <;> split_ifs <;> omega
  · dsimp only
    split_ifs <;> omega
  · dsimp only
    split_ifs <;> omega

end Add

/-! ## Filter -/

section Filter

variable (F : TxFields τ)

/-- What `Filter` answers and leaves. It removes, each once, the transactions
over a limit. In strict mode, when it removed any, it also invalidates, each
once, every other transaction above the nonce its loop finds. The list keeps
the rest, within the limits. -/
structure Filtered (l : TxList τ) (costLimit gasLimit : ℕ) (removed invalids : List τ) (l' : TxList τ) :
    Prop where
  removed_nodup : removed.Nodup
  mem_removed : ∀ tx, tx ∈ removed ↔ l.txs.get (F.nonce tx) = some tx ∧ exceeds F costLimit gasLimit tx = true
  invalids_nodup : invalids.Nodup
  mem_invalids : ∀ tx, tx ∈ invalids ↔ l.strict = true ∧ l.txs.get (F.nonce tx) = some tx ∧
    exceeds F costLimit gasLimit tx = false ∧ removed ≠ [] ∧ lowestNonce F removed < F.nonce tx
  get : ∀ n tx, l'.txs.get n = some tx ↔ l.txs.get n = some tx ∧ exceeds F costLimit gasLimit tx = false ∧
    ¬ (l.strict = true ∧ removed ≠ [] ∧ lowestNonce F removed < n)
  inv : l'.Inv F
  strict : l'.strict = l.strict

variable {F} {l : TxList τ} {costLimit gasLimit : ℕ}

theorem foldl_lowerTo (removed : List τ) (acc : ℕ) :
    removed.foldl (lowerTo F) acc ≤ acc ∧ (∀ r ∈ removed, removed.foldl (lowerTo F) acc ≤ F.nonce r) ∧
      (removed.foldl (lowerTo F) acc = acc ∨ ∃ r ∈ removed, F.nonce r = removed.foldl (lowerTo F) acc) := by
  induction removed generalizing acc with
  | nil => simp
  | cons tx rest ih =>
      obtain ⟨hle, hall, hwho⟩ := ih (lowerTo F acc tx)
      have hstep : lowerTo F acc tx ≤ acc ∧ lowerTo F acc tx ≤ F.nonce tx ∧
          (lowerTo F acc tx = acc ∨ lowerTo F acc tx = F.nonce tx) := by
        unfold lowerTo
        split_ifs <;> omega
      rw [List.foldl_cons]
      refine ⟨hle.trans hstep.1, fun r hr => ?_, ?_⟩
      · rcases List.mem_cons.mp hr with rfl | hr
        · exact hle.trans hstep.2.1
        · exact hall r hr
      · rcases hwho with h | ⟨r, hr, h⟩
        · rcases hstep.2.2 with h' | h'
          · exact Or.inl (h.trans h')
          · exact Or.inr ⟨tx, List.mem_cons_self, (h.trans h').symm⟩
        · exact Or.inr ⟨r, List.mem_cons_of_mem _ hr, h⟩

/-- With nonces below `2 ^ 64` and something removed, the loop finds the least
removed nonce. -/
theorem lt_lowestNonce_iff (hnonce : ∀ tx, F.nonce tx < 2 ^ 64) {removed : List τ} (hne : removed ≠ [])
    (k : ℕ) : lowestNonce F removed < k ↔ ∃ r ∈ removed, F.nonce r < k := by
  obtain ⟨-, hall, hwho⟩ := foldl_lowerTo (F := F) removed (2 ^ 64 - 1)
  rw [← lowestNonce] at hall hwho
  constructor
  · intro hk
    rcases hwho with h | ⟨r, hr, h⟩
    · -- the loop never lowered: every removed nonce is `2 ^ 64 - 1`
      obtain ⟨r, hr⟩ := List.exists_mem_of_ne_nil removed hne
      have h₁ := hall r hr
      have h₂ := hnonce r
      exact ⟨r, hr, by omega⟩
    · exact ⟨r, hr, by omega⟩
  · rintro ⟨r, hr, hk⟩
    have := hall r hr
    omega

theorem filter_result {m m' : TxSortedMap τ} {f : τ → Bool} {order₁ : List (Σ _ : ℕ, τ)} {order₂ : List ℕ}
    {removed : List τ} (h : m.filter f order₁ order₂ = some (removed, m')) :
    removed = (TxSortedMap.filterLoop f order₁ m.items []).2 ∧
      m'.items = (TxSortedMap.filterLoop f order₁ m.items []).1 := by
  simp only [TxSortedMap.filter] at h
  split_ifs at h
  · obtain ⟨m'', hre, heq⟩ := Option.map_eq_some_iff.mp h
    cases heq
    unfold TxSortedMap.reheap at hre
    obtain ⟨index, -, rfl⟩ := Option.map_eq_some_iff.mp hre
    exact ⟨rfl, rfl⟩
  · cases h
    exact ⟨rfl, rfl⟩

@[simp]
theorem exceeds_eq_false {tx : τ} :
    exceeds F costLimit gasLimit tx = false ↔ F.cost tx ≤ costLimit ∧ F.gas tx ≤ gasLimit := by
  simp only [exceeds, Bool.or_eq_false_iff, decide_eq_false_iff_not]
  omega

@[simp]
theorem exceeds_eq_true {tx : τ} :
    exceeds F costLimit gasLimit tx = true ↔ F.gas tx > gasLimit ∨ F.cost tx > costLimit := by
  simp [exceeds]

/-- Strict mode invalidates above the least removed nonce, nonces being `uint64`s. -/
theorem ne_nil_and_lowestNonce_lt_iff (hnonce : ∀ tx, F.nonce tx < 2 ^ 64) (removed : List τ) (k : ℕ) :
    removed ≠ [] ∧ lowestNonce F removed < k ↔ ∃ r ∈ removed, F.nonce r < k := by
  by_cases hne : removed = []
  · simp [hne]
  · rw [← lt_lowestNonce_iff hnonce hne]
    exact ⟨fun h => h.2, fun h => ⟨hne, h⟩⟩

/-- The short circuit: with the caps within the limits, no transaction is over
a limit. -/
theorem Inv.filtered_of_caps (hl : l.Inv F) (hc : l.costcap ≤ costLimit) (hg : l.gascap ≤ gasLimit) :
    Filtered F l costLimit gasLimit [] [] l := by
  have hin : ∀ n tx, l.txs.get n = some tx → exceeds F costLimit gasLimit tx = false := by
    intro n tx h
    have := hl.caps n tx h
    rw [exceeds_eq_false]
    omega
  refine ⟨List.nodup_nil, fun tx => ?_, List.nodup_nil, fun tx => ?_, fun n tx => ?_, hl, rfl⟩
  · simp only [List.not_mem_nil, false_iff, not_and]
    intro h
    rw [hin _ _ h]
    decide
  · simp
  · simp only [ne_eq, not_true_eq_false, false_and, and_false, not_false_eq_true, and_true]
    exact ⟨fun h => ⟨h, hin n tx h⟩, fun h => h.1⟩

/-- `Filter` removes exactly the transactions over a limit, whether or not it
takes the short circuit, and keeps the invariant. -/
theorem Inv.filter (hl : l.Inv F) {order₁ order₃ : List (Σ _ : ℕ, τ)}
    {order₂ order₄ : List ℕ} (hf : (Op.filter costLimit gasLimit order₁ order₂ order₃ order₄).Fits F l) :
    ∃ removed invalids l', l.filter F costLimit gasLimit order₁ order₂ order₃ order₄ = some ((removed, invalids), l') ∧
      Filtered F l costLimit gasLimit removed invalids l' := by
  by_cases hcaps : l.costcap ≤ costLimit ∧ l.gascap ≤ gasLimit
  · exact ⟨[], [], l, by rw [TxList.filter, if_pos hcaps], hl.filtered_of_caps hcaps.1 hcaps.2⟩
  obtain ⟨h₁, h₂, h₃, h₄⟩ := hf
  obtain ⟨removed, m₁, hm₁, hinv₁, hnd, hmem, hlook⟩ := hl.sorted.filter (exceeds F costLimit gasLimit) h₁ h₂
  obtain ⟨hremoved, hitems₁⟩ := filter_result hm₁
  have hget₁ := get_iff_of_filtered hlook
  -- what is left after the first filter is within the limits
  have hcaps₁ : ∀ n tx, m₁.get n = some tx → F.cost tx ≤ costLimit ∧ F.gas tx ≤ gasLimit := fun n tx h =>
    exceeds_eq_false.mp ((hget₁ n tx).mp h).2
  have hat : ∀ n tx, l.txs.get n = some tx → F.nonce tx = n := hl.sorted.atNonce
  have hrun : l.filter F costLimit gasLimit order₁ order₂ order₃ order₄ =
      if removed.length = 0 then some (([], []), ⟨l.strict, m₁, costLimit, gasLimit⟩)
      else
        let r := if l.strict then
            m₁.filterNoReheap (fun tx => decide (F.nonce tx > lowestNonce F removed)) order₃
          else ([], m₁)
        (r.2.reheap order₄).map fun txs => ((removed, r.1), ⟨l.strict, txs, costLimit, gasLimit⟩) := by
    rw [TxList.filter, if_neg hcaps, hm₁, Option.bind_some]
  by_cases hzero : removed.length = 0
  · -- nothing over a limit: the caps are lowered all the same
    have hnil := List.eq_nil_of_length_eq_zero hzero
    subst hnil
    refine ⟨[], [], ⟨l.strict, m₁, costLimit, gasLimit⟩, by rw [hrun, if_pos hzero],
      ⟨hnd, hmem, List.nodup_nil, fun tx => by simp, fun n tx => ?_,
      ⟨hinv₁, hcaps₁⟩, rfl⟩⟩
    simpa using hget₁ n tx
  have hne : removed ≠ [] := fun h => hzero (by rw [h]; rfl)
  rw [if_neg hzero] at hrun
  cases hstrict : l.strict with
  | false =>
      -- no invalidation: the last `reheap` rebuilds the heap of what is left
      rw [hstrict, if_neg Bool.false_ne_true] at h₄
      obtain ⟨m₂, hre, hinv₂, hitems₂⟩ := TxSortedMap.reheap_spec hinv₁.atNonce
        (show order₄.Perm m₁.items.keys by rw [hitems₁]; exact h₄)
      refine ⟨removed, [], ⟨false, m₂, costLimit, gasLimit⟩, by simp [hrun, hstrict, hre], ⟨hnd, hmem,
        List.nodup_nil, fun tx => by simp [hstrict], fun n tx => ?_, ⟨hinv₂, ?_⟩, hstrict.symm⟩⟩
      · simpa [TxSortedMap.get, hitems₂, hstrict] using hget₁ n tx
      · intro n tx h
        exact hcaps₁ n tx (by rwa [TxSortedMap.get, ← hitems₂])
  | true =>
      -- invalidation above the lowest removed nonce
      rw [hstrict, if_pos rfl, ← hremoved] at h₄
      set g : τ → Bool := fun tx => decide (F.nonce tx > lowestNonce F removed) with hg
      obtain ⟨hnd₂, hmem₂, hat₂, hlook₂, -⟩ := TxSortedMap.filterNoReheap_spec (f := g) hinv₁.atNonce
        (show order₃.Perm m₁.items.entries by rw [hitems₁]; exact h₃)
      obtain ⟨m₂, hre, hinv₂, hitems₂⟩ := TxSortedMap.reheap_spec hat₂
        (show order₄.Perm (m₁.filterNoReheap g order₃).2.items.keys by
          simpa [TxSortedMap.filterNoReheap, hitems₁] using h₄)
      have hget₂ := get_iff_of_filtered hlook₂
      have hg_iff : ∀ tx, g tx = true ↔ removed ≠ [] ∧ lowestNonce F removed < F.nonce tx := fun tx => by
        rw [hg, decide_eq_true_iff, gt_iff_lt]
        exact ⟨fun h => ⟨hne, h⟩, fun h => h.2⟩
      refine ⟨removed, (m₁.filterNoReheap g order₃).1, ⟨true, m₂, costLimit, gasLimit⟩,
        by simp [hrun, hstrict, hre], ⟨hnd, hmem, hnd₂, fun tx => ?_, fun n tx => ?_, ⟨hinv₂, ?_⟩, hstrict.symm⟩⟩
      · rw [hmem₂, hg_iff, ← TxSortedMap.get, hget₁, hstrict]
        simp only [true_and, and_assoc]
      · rw [TxSortedMap.get, hitems₂, ← TxSortedMap.get, hget₂, hget₁, hstrict]
        constructor
        · rintro ⟨⟨hl', hex⟩, hgx⟩
          refine ⟨hl', hex, fun hr => ?_⟩
          rw [← hat n tx hl', ← hg_iff, hgx] at hr
          cases hr.2
        · rintro ⟨hl', hex, hno⟩
          refine ⟨⟨hl', hex⟩, ?_⟩
          cases hgx : g tx
          · rfl
          · rw [hg_iff, hat n tx hl'] at hgx
            exact absurd ⟨rfl, hgx⟩ hno
      · intro n tx h
        rw [TxSortedMap.get, hitems₂, ← TxSortedMap.get, hget₂] at h
        exact hcaps₁ n tx h.1

end Filter

/-! ## Remove -/

section Remove

variable {F : TxFields τ} {l : TxList τ}

theorem remove_items {m m' : TxSortedMap τ} {n : ℕ} (h : m.remove n = some (true, m')) :
    m'.items = m.items.erase n := by
  unfold TxSortedMap.remove at h
  split_ifs at h
  · simp at h
  · obtain ⟨index, -, heq⟩ := Option.map_eq_some_iff.mp h
    cases heq
    rfl

theorem get_iff_of_erased {m m' : TxSortedMap τ} {k : ℕ}
    (h : ∀ n, m'.items.lookup n = if n = k then none else m.items.lookup n) (n : ℕ) (tx : τ) :
    m'.get n = some tx ↔ m.get n = some tx ∧ n ≠ k := by
  rw [TxSortedMap.get, TxSortedMap.get, h n]
  split_ifs with hn
  · simp [hn]
  · simp [hn]

/-- `Remove` deletes the transaction at the nonce, if there is one, and in
strict mode invalidates every transaction above it. -/
theorem Inv.remove (hl : l.Inv F) (tx : τ) {order₁ : List (Σ _ : ℕ, τ)} {order₂ : List ℕ}
    (hf : (Op.remove tx order₁ order₂).Fits F l) :
    ∃ found invalids l', l.remove F tx order₁ order₂ = some ((found, invalids), l') ∧ l'.Inv F ∧
      l'.strict = l.strict ∧ found = (l.txs.get (F.nonce tx)).isSome ∧ invalids.Nodup ∧
      (∀ tx', tx' ∈ invalids ↔ found = true ∧ l.strict = true ∧ l.txs.get (F.nonce tx') = some tx' ∧
        F.nonce tx < F.nonce tx') ∧
      ∀ n tx', l'.txs.get n = some tx' ↔ l.txs.get n = some tx' ∧ n ≠ F.nonce tx ∧
        ¬ (found = true ∧ l.strict = true ∧ F.nonce tx < n) := by
  obtain ⟨m', hrm, hinv', hlook'⟩ := hl.sorted.remove (F.nonce tx)
  have hget' := get_iff_of_erased hlook'
  have hat : ∀ n tx', l.txs.get n = some tx' → F.nonce tx' = n := hl.sorted.atNonce
  cases hfound : (l.txs.items.lookup (F.nonce tx)).isSome with
  | false =>
      -- nothing at the nonce: the list stays as it is
      refine ⟨false, [], l, by simp [TxList.remove, hrm, hfound], hl, rfl, hfound.symm, List.nodup_nil,
        fun tx' => by simp, fun n tx' => ?_⟩
      refine ⟨fun h => ⟨h, fun hn => ?_, by simp⟩, fun h => h.1⟩
      rw [hn, TxSortedMap.get] at h
      simp [h] at hfound
  | true =>
      rw [hfound] at hrm
      have hitems := remove_items hrm
      have hcaps' : ∀ n tx', m'.get n = some tx' → l.txs.get n = some tx' := fun n tx' h =>
        ((hget' n tx').mp h).1
      cases hstrict : l.strict with
      | false =>
          refine ⟨true, [], { l with txs := m' }, by simp [TxList.remove, hrm, hstrict],
            hl.of_sub hinv' rfl rfl hcaps', hstrict, hfound.symm, List.nodup_nil, fun tx' => by simp, fun n tx' => ?_⟩
          simpa using hget' n tx'
      | true =>
          -- the strict `Filter` after the removal
          obtain ⟨h₁, h₂⟩ := hf
          rw [← hitems] at h₁ h₂
          obtain ⟨invalids, m'', hfl, hinv'', hnd, hmem, hlook''⟩ :=
            hinv'.filter (fun tx' => decide (F.nonce tx' > F.nonce tx)) h₁ h₂
          have hget'' := get_iff_of_filtered hlook''
          have hsub : ∀ n tx', m''.get n = some tx' → l.txs.get n = some tx' := fun n tx' h =>
            hcaps' n tx' ((hget'' n tx').mp h).1
          refine ⟨true, invalids, { l with txs := m'' }, by simp [TxList.remove, hrm, hstrict, hfl],
            hl.of_sub hinv'' rfl rfl hsub, hstrict, hfound.symm, hnd, fun tx' => ?_, fun n tx' => ?_⟩
          · rw [hmem, ← TxSortedMap.get, hget']
            simp only [decide_eq_true_eq, gt_iff_lt, true_and]
            constructor
            · rintro ⟨⟨h, -⟩, hlt⟩
              exact ⟨h, hlt⟩
            · rintro ⟨h, hlt⟩
              exact ⟨⟨h, by omega⟩, hlt⟩
          · rw [hget'', hget']
            simp only [decide_eq_false_iff_not, gt_iff_lt, true_and]
            constructor
            · rintro ⟨⟨h, hn⟩, hlt⟩
              exact ⟨h, hn, by rwa [← hat n tx' h]⟩
            · rintro ⟨h, hn, hlt⟩
              exact ⟨⟨h, hn⟩, by rwa [hat n tx' h]⟩

end Remove

/-! ## Runs -/

section Runs

variable {F : TxFields τ} {l : TxList τ}

theorem Inv.add (hl : l.Inv F) (tx : τ) (priceBump : ℕ) {l' : TxList τ} {r : Bool × Option τ}
    (h : l.add F tx priceBump = some (r, l')) : l'.Inv F := by
  have hover : ∀ old, l.overwrite F tx old = some (r, l') → l'.Inv F := fun old ho => by
    obtain ⟨l'', ho', hinv, -⟩ := hl.overwrite tx old
    rw [ho', Option.some_inj, Prod.mk.injEq] at ho
    exact ho.2 ▸ hinv
  unfold TxList.add at h
  split at h
  · exact hover none h
  · split_ifs at h
    · cases h
      exact hl
    · cases h
      exact hl
    · exact hover _ h

/-- Every call keeps the invariant. -/
theorem Inv.apply (hl : l.Inv F) {op : Op τ} (hf : op.Fits F l) {l' : TxList τ} (h : op.apply F l = some l') :
    l'.Inv F := by
  cases op with
  | add tx priceBump =>
      obtain ⟨⟨r, l''⟩, ha, rfl⟩ := Option.map_eq_some_iff.mp h
      exact hl.add tx priceBump ha
  | forward threshold =>
      obtain ⟨removed, m', hp, hinv, hlook, -⟩ := hl.sorted.forward threshold
      simp only [Op.apply, TxList.forward, hp, Option.map_some, Option.some_inj] at h
      exact h ▸ hl.of_sub hinv rfl rfl (get_sub_of_ite hlook)
  | filter costLimit gasLimit order₁ order₂ order₃ order₄ =>
      obtain ⟨removed, invalids, l'', hfl, hfd⟩ := hl.filter hf
      simp only [Op.apply, hfl, Option.map_some, Option.some_inj] at h
      exact h ▸ hfd.inv
  | cap threshold =>
      obtain ⟨⟨drops, m'⟩, hc, rfl⟩ := Option.map_eq_some_iff.mp
        (show (l.txs.cap threshold).map (fun r => { l with txs := r.2 }) = some l' by
          simpa [Op.apply, TxList.cap] using h)
      by_cases hneg : threshold < 0
      · -- at size `0` Go reads `(*m.index)[-1]`
        have hlen : ¬ (l.txs.len : ℤ) ≤ threshold := by omega
        simp [TxSortedMap.cap, hlen, TxSortedMap.capLoop_neg hneg] at hc
      · obtain ⟨k, rfl⟩ := Int.eq_ofNat_of_zero_le (Int.not_lt.mp hneg)
        obtain ⟨drops', m'', hp, hinv, txs, -, -, -, -, hlook, -⟩ := hl.sorted.cap k
        rw [hp, Option.some_inj, Prod.mk.injEq] at hc
        exact hc.2 ▸ hl.of_sub hinv rfl rfl (get_sub_of_ite hlook)
  | remove tx order₁ order₂ =>
      obtain ⟨found, invalids, l'', hrm, hinv, -⟩ := hl.remove tx hf
      simp only [Op.apply, hrm, Option.map_some, Option.some_inj] at h
      exact h ▸ hinv
  | ready start =>
      obtain ⟨rdy, m', hp, hinv, txs, -, -, hlook, -⟩ := hl.sorted.ready start
      simp only [Op.apply, TxList.ready, hp, Option.map_some, Option.some_inj] at h
      exact h ▸ hl.of_sub hinv rfl rfl (get_sub_of_ite hlook)
  | flatten order =>
      obtain ⟨-, hinv, hitems⟩ := hl.sorted.flatten hf
      simp only [Op.apply, TxList.flatten, Option.some_inj] at h
      refine h ▸ hl.of_sub hinv rfl rfl fun n tx hn => ?_
      rwa [TxSortedMap.get, hitems] at hn
  | lastElement order =>
      obtain ⟨⟨tx, m'⟩, hle, rfl⟩ := Option.map_eq_some_iff.mp
        (show (l.txs.lastElement F.nonce order).map (fun r => { l with txs := r.2 }) = some l' by
          simpa [Op.apply, TxList.lastElement] using h)
      obtain ⟨-, hinv, hitems⟩ := hl.sorted.flatten hf
      simp only [TxSortedMap.lastElement, Option.map_eq_some_iff, Prod.mk.injEq] at hle
      obtain ⟨-, -, -, rfl⟩ := hle
      refine hl.of_sub hinv rfl rfl fun n tx hn => ?_
      rwa [TxSortedMap.get, hitems] at hn

theorem Reachable.inv (hr : l.Reachable F) : l.Inv F := by
  induction hr with
  | new strict => exact inv_new strict
  | step _ hf hp ih => exact ih.apply hf hp

/-- `Add` at a free nonce takes the transaction and puts it at its nonce. -/
theorem Reachable.add_fresh (hr : l.Reachable F) (tx : τ) (priceBump : ℕ)
    (hn : l.txs.get (F.nonce tx) = none) :
    ∃ l', l.add F tx priceBump = some ((true, none), l') ∧ l'.Reachable F ∧ l'.strict = l.strict ∧
      l'.txs.items = l.txs.items.insert (F.nonce tx) tx := by
  obtain ⟨m', hp, -, hitems⟩ := hr.inv.sorted.put tx
  obtain ⟨l', ho, -, hs, -, -, -⟩ := hr.inv.overwrite tx none
  have ha : l.add F tx priceBump = some ((true, none), l') := by
    rw [TxList.add, hn]
    exact ho
  rw [TxList.overwrite, hp, Option.map_some, Option.some_inj] at ho
  obtain ⟨-, rfl⟩ := Prod.mk.inj ho
  exact ⟨_, ha, .step hr (show (Op.add tx priceBump).Fits F l from trivial) (by rw [Op.apply, ha]; rfl), hs,
    hitems⟩

end Runs

/-- From `newTxList`, every sequence of calls keeps the sorted map's invariant,
and the caps bound the cost and the gas of every transaction held. -/
theorem caps_bound_every_transaction (F : TxFields τ) {l : TxList τ} (hr : l.Reachable F) :
    l.txs.Inv F.nonce ∧ ∀ n tx, l.txs.get n = some tx → F.cost tx ≤ l.costcap ∧ F.gas tx ≤ l.gascap :=
  ⟨hr.inv.sorted, hr.inv.caps⟩

/-- Nonces 3 and 4 at cost and gas 7 and 5: both caps reach 7. -/
theorem caps_bound_every_transaction_two :
    ∃ l : TxList (ℕ × ℕ), l.Reachable ⟨Prod.fst, Prod.snd, Prod.snd, Prod.snd, Prod.snd⟩ ∧
      l.txs.items.keys = [4, 3] ∧ l.txs.Inv Prod.fst ∧ 7 ≤ l.costcap ∧ 7 ≤ l.gascap := by
  obtain ⟨l₁, -, hr₁, -, hi₁⟩ :=
    (Reachable.new (F := ⟨Prod.fst, Prod.snd, Prod.snd, Prod.snd, Prod.snd⟩) false).add_fresh (3, 7) 0 rfl
  obtain ⟨l, -, hr, -, hi⟩ := hr₁.add_fresh (4, 5) 0 (by rw [TxSortedMap.get, hi₁]; rfl)
  obtain ⟨hinv, hcaps⟩ := caps_bound_every_transaction _ hr
  have h3 : l.txs.get 3 = some (3, 7) := by
    rw [TxSortedMap.get, hi, hi₁]
    rfl
  exact ⟨l, hr, by rw [hi, hi₁]; rfl, hinv, (hcaps 3 _ h3).1, (hcaps 3 _ h3).2⟩

/-- `Add` at a taken nonce replaces the old transaction only when the new fee
cap and tip are both higher and at least `priceBump` percent higher; the list
then holds the new transaction there and its caps cover it. A rejected
transaction leaves the list as it was. -/
theorem add_replaces_only_with_price_bump (F : TxFields τ) {l : TxList τ} (hr : l.Reachable F) (tx : τ)
    {priceBump : ℕ} (hbump : 100 + priceBump < 2 ^ 63) :
    ∃ accepted old l', l.add F tx priceBump = some ((accepted, old), l') ∧
      (accepted = true ↔ ∀ o, l.txs.get (F.nonce tx) = some o →
        F.gasFeeCap o < F.gasFeeCap tx ∧ F.gasTipCap o < F.gasTipCap tx ∧
          (100 + priceBump) * F.gasFeeCap o / 100 ≤ F.gasFeeCap tx ∧
          (100 + priceBump) * F.gasTipCap o / 100 ≤ F.gasTipCap tx) ∧
      (accepted = true → old = l.txs.get (F.nonce tx) ∧
        (∀ n, l'.txs.get n = if n = F.nonce tx then some tx else l.txs.get n) ∧
        F.cost tx ≤ l'.costcap ∧ F.gas tx ≤ l'.gascap) ∧
      (accepted = false → old = none ∧ l' = l) := by
  have hl := hr.inv
  have hthr := bumpThreshold_of_lt hbump
  unfold TxList.add
  cases hget : l.txs.get (F.nonce tx) with
  | none =>
      obtain ⟨l', ho, -, -, hget', hc, hg⟩ := hl.overwrite tx none
      exact ⟨true, none, l', ho, by simp, fun _ => ⟨rfl, hget', hc, hg⟩, nofun⟩
  | some o =>
      dsimp only
      by_cases h₁ : F.gasFeeCap o ≥ F.gasFeeCap tx ∨ F.gasTipCap o ≥ F.gasTipCap tx
      · -- not higher: rejected
        refine ⟨false, none, l, by rw [if_pos h₁], ?_, nofun, fun _ => ⟨rfl, rfl⟩⟩
        simp only [Bool.false_eq_true, Option.some.injEq, forall_eq', false_iff, not_and]
        omega
      by_cases h₂ : (F.gasFeeCap tx : ℤ) < bumpThreshold priceBump (F.gasFeeCap o) ∨
          (F.gasTipCap tx : ℤ) < bumpThreshold priceBump (F.gasTipCap o)
      · -- higher, but not by `priceBump` percent: rejected
        refine ⟨false, none, l, by rw [if_neg h₁, if_pos h₂], ?_, nofun, fun _ => ⟨rfl, rfl⟩⟩
        rw [hthr, hthr] at h₂
        simp only [Bool.false_eq_true, Option.some.injEq, forall_eq', false_iff, not_and]
        omega
      · obtain ⟨l', ho, -, -, hget', hc, hg⟩ := hl.overwrite tx (some o)
        refine ⟨true, some o, l', by rw [if_neg h₁, if_neg h₂, ho], ?_, fun _ => ⟨rfl, hget', hc, hg⟩, nofun⟩
        rw [hthr, hthr] at h₂
        simp only [Option.some.injEq, forall_eq', true_iff]
        omega

/-- A list holding nonce 5 at price 10: with a bump of 10 percent a price of 11
replaces it, with 20 percent it does not, and the same price never does. -/
theorem add_replaces_only_with_price_bump_five :
    ∃ l : TxList (ℕ × ℕ), l.Reachable ⟨Prod.fst, Prod.snd, Prod.snd, Prod.snd, Prod.snd⟩ ∧
      l.txs.get 5 = some (5, 10) ∧
      (∃ l', l.add ⟨Prod.fst, Prod.snd, Prod.snd, Prod.snd, Prod.snd⟩ (5, 11) 10 =
        some ((true, some (5, 10)), l') ∧ l'.txs.get 5 = some (5, 11)) ∧
      l.add ⟨Prod.fst, Prod.snd, Prod.snd, Prod.snd, Prod.snd⟩ (5, 11) 20 = some ((false, none), l) ∧
      l.add ⟨Prod.fst, Prod.snd, Prod.snd, Prod.snd, Prod.snd⟩ (5, 10) 10 = some ((false, none), l) := by
  obtain ⟨l, -, hr, -, hi⟩ :=
    (Reachable.new (F := ⟨Prod.fst, Prod.snd, Prod.snd, Prod.snd, Prod.snd⟩) false).add_fresh (5, 10) 0 rfl
  have h5 : l.txs.get 5 = some (5, 10) := by
    rw [TxSortedMap.get, hi]
    rfl
  -- a rejected transaction: some test at the old one fails
  have hrejected : ∀ (tx : ℕ × ℕ) {priceBump : ℕ}, tx.1 = 5 → 100 + priceBump < 2 ^ 63 →
      ¬ (10 < tx.2 ∧ 10 < tx.2 ∧ (100 + priceBump) * 10 / 100 ≤ tx.2 ∧ (100 + priceBump) * 10 / 100 ≤ tx.2) →
      l.add ⟨Prod.fst, Prod.snd, Prod.snd, Prod.snd, Prod.snd⟩ tx priceBump = some ((false, none), l) := by
    intro tx priceBump htx hbump hfail
    obtain ⟨accepted, old, l', ha, hiff, -, hrej⟩ := add_replaces_only_with_price_bump _ hr tx hbump
    have hfalse : accepted = false := by
      cases accepted
      · rfl
      · exact absurd ((hiff.mp rfl) _ (htx ▸ h5)) hfail
    obtain ⟨rfl, rfl⟩ := hrej hfalse
    rw [ha, hfalse]
  refine ⟨l, hr, h5, ?_, hrejected (5, 11) rfl (by decide) (by decide), hrejected (5, 10) rfl (by decide) (by decide)⟩
  obtain ⟨accepted, old, l', ha, hiff, hacc, -⟩ :=
    add_replaces_only_with_price_bump _ hr (5, 11) (by decide : 100 + 10 < 2 ^ 63)
  have htrue : accepted = true := hiff.mpr fun o ho => by
    rw [h5] at ho
    cases ho
    decide
  subst htrue
  obtain ⟨hold, hget, -⟩ := hacc rfl
  exact ⟨l', by rw [ha, hold, h5], by rw [hget]; rfl⟩

/-- `Filter` removes, each once, exactly the transactions whose gas or cost is
over the limits, also when its short circuit on the caps answers at once. In
strict mode it also invalidates, each once, exactly the other transactions above
a removed nonce. The list keeps the rest. -/
theorem filter_removes_over_limits (F : TxFields τ) (hnonce : ∀ tx, F.nonce tx < 2 ^ 64) {l : TxList τ}
    (hr : l.Reachable F) (costLimit gasLimit : ℕ) {order₁ order₃ : List (Σ _ : ℕ, τ)} {order₂ order₄ : List ℕ}
    (hf : (Op.filter costLimit gasLimit order₁ order₂ order₃ order₄).Fits F l) :
    ∃ removed invalids l', l.filter F costLimit gasLimit order₁ order₂ order₃ order₄ = some ((removed, invalids), l') ∧
      removed.Nodup ∧
      (∀ tx, tx ∈ removed ↔ l.txs.get (F.nonce tx) = some tx ∧ (F.gas tx > gasLimit ∨ F.cost tx > costLimit)) ∧
      invalids.Nodup ∧
      (∀ tx, tx ∈ invalids ↔ l.strict = true ∧ l.txs.get (F.nonce tx) = some tx ∧
        F.cost tx ≤ costLimit ∧ F.gas tx ≤ gasLimit ∧ ∃ r ∈ removed, F.nonce r < F.nonce tx) ∧
      ∀ n tx, l'.txs.get n = some tx ↔ l.txs.get n = some tx ∧ F.cost tx ≤ costLimit ∧ F.gas tx ≤ gasLimit ∧
        ¬ (l.strict = true ∧ ∃ r ∈ removed, F.nonce r < n) := by
  obtain ⟨removed, invalids, l', hfl, hfd⟩ := hr.inv.filter hf
  have hlow := ne_nil_and_lowestNonce_lt_iff hnonce removed
  refine ⟨removed, invalids, l', hfl, hfd.removed_nodup, fun tx => ?_, hfd.invalids_nodup, fun tx => ?_,
    fun n tx => ?_⟩
  · rw [hfd.mem_removed, exceeds_eq_true]
  · rw [hfd.mem_invalids, exceeds_eq_false, hlow, and_assoc]
  · rw [hfd.get, exceeds_eq_false, hlow, and_assoc]

/-- A strict list at nonces 3, 4 and 5 in which only 4 costs more than 5: a
filter at 5 removes 4, invalidates 5 above it and keeps 3. -/
theorem filter_removes_over_limits_strict :
    ∃ l : TxList (UInt64 × ℕ),
      l.Reachable ⟨fun tx : UInt64 × ℕ => tx.1.toNat, Prod.snd, Prod.snd, Prod.snd, Prod.snd⟩ ∧
      l.strict = true ∧ l.txs.items.keys = [5, 4, 3] ∧
      ∃ l', l.filter ⟨fun tx : UInt64 × ℕ => tx.1.toNat, Prod.snd, Prod.snd, Prod.snd, Prod.snd⟩ 5 5
          [⟨5, (5, 1)⟩, ⟨4, (4, 9)⟩, ⟨3, (3, 1)⟩] [5, 3] [⟨5, (5, 1)⟩, ⟨3, (3, 1)⟩] [3] =
          some (([(4, 9)], [(5, 1)]), l') ∧
        ∀ n tx, l'.txs.get n = some tx ↔ n = 3 ∧ tx = (3, 1) := by
  obtain ⟨l₁, -, hr₁, hs₁, hi₁⟩ := (Reachable.new
    (F := ⟨fun tx : UInt64 × ℕ => tx.1.toNat, Prod.snd, Prod.snd, Prod.snd, Prod.snd⟩) true).add_fresh (3, 1) 0 rfl
  obtain ⟨l₂, -, hr₂, hs₂, hi₂⟩ := hr₁.add_fresh (4, 9) 0 (by rw [TxSortedMap.get, hi₁]; rfl)
  obtain ⟨l, -, hr, hs, hi⟩ := hr₂.add_fresh (5, 1) 0 (by rw [TxSortedMap.get, hi₂, hi₁]; rfl)
  have hstrict : l.strict = true := by rw [hs, hs₂, hs₁]; rfl
  have hget : ∀ n, l.txs.get n =
      if n = 5 then some (5, 1) else if n = 4 then some (4, 9) else if n = 3 then some (3, 1) else none := by
    intro n
    rw [TxSortedMap.get, hi, hi₂, hi₁, TxSortedMap.lookup_insert_eq, TxSortedMap.lookup_insert_eq,
      TxSortedMap.lookup_insert_eq]
    rfl
  have hf : (Op.filter 5 5 [⟨5, (5, 1)⟩, ⟨4, (4, 9)⟩, ⟨3, (3, 1)⟩] [5, 3] [⟨5, (5, 1)⟩, ⟨3, (3, 1)⟩] [3]).Fits
      ⟨fun tx : UInt64 × ℕ => tx.1.toNat, Prod.snd, Prod.snd, Prod.snd, Prod.snd⟩ l := by
    simp only [Op.Fits, hstrict, if_true, hi, hi₂, hi₁]
    decide
  obtain ⟨removed, invalids, l', hfl, hnd, hmem, hnd', hmem', hget'⟩ :=
    filter_removes_over_limits _ (fun tx => UInt64.toNat_lt tx.1) hr 5 5 hf
  dsimp only at hmem hmem' hget'
  -- the transactions held, each at its own nonce
  have hat : ∀ tx : UInt64 × ℕ, l.txs.get tx.1.toNat = some tx ↔ tx = (5, 1) ∨ tx = (4, 9) ∨ tx = (3, 1) := by
    intro tx
    rw [hget]
    constructor
    · intro h
      split_ifs at h <;> simp only [Option.some.injEq] at h <;> simp [← h]
    · rintro (rfl | rfl | rfl) <;> rfl
  have hrem : removed = [(4, 9)] := by
    apply List.perm_singleton.mp
    rw [List.perm_ext_iff_of_nodup hnd (List.nodup_singleton _)]
    intro tx
    rw [hmem, hat, List.mem_singleton]
    constructor
    · rintro ⟨h | h | h, hc⟩ <;> subst h <;> simp_all
    · rintro rfl
      decide
  subst hrem
  have hinv : invalids = [(5, 1)] := by
    apply List.perm_singleton.mp
    rw [List.perm_ext_iff_of_nodup hnd' (List.nodup_singleton _)]
    intro tx
    rw [hmem', hat, List.mem_singleton, hstrict]
    constructor
    · rintro ⟨-, h | h | h, hc⟩
      · exact h
      · subst h
        exact absurd hc.1 (by decide)
      · subst h
        obtain ⟨r, hr, hlt⟩ := hc.2.2
        rw [List.mem_singleton] at hr
        subst hr
        exact absurd hlt (by decide)
    · rintro rfl
      decide
  refine ⟨l, hr, hstrict, by rw [hi, hi₂, hi₁]; rfl, l', by rw [hfl, hinv], fun n tx => ?_⟩
  have hfour : ((4 : UInt64), 9).1.toNat = 4 := rfl
  rw [hget', hget, hstrict]
  simp only [List.mem_singleton, exists_eq_left, true_and, hfour]
  -- 5 lies above the removed nonce, 4 costs too much, 3 stays
  split_ifs with h5 h4 h3
  · subst h5
    constructor
    · rintro ⟨-, -, -, h⟩
      exact absurd (by decide) h
    · rintro ⟨h, -⟩
      exact absurd h (by decide)
  · subst h4
    constructor
    · rintro ⟨h, hc, -⟩
      rw [← Option.some.inj h] at hc
      exact absurd hc (by decide)
    · rintro ⟨h, -⟩
      exact absurd h (by decide)
  · subst h3
    constructor
    · rintro ⟨h, -⟩
      exact ⟨rfl, (Option.some.inj h).symm⟩
    · rintro ⟨-, rfl⟩
      decide
  · exact ⟨fun h => absurd h.1 (by simp), fun h => absurd h.1 h3⟩

/-- `Remove` deletes the transaction at the nonce of its argument, if there is
one. In strict mode it then invalidates, each once, every transaction above that
nonce. Nothing else changes. -/
theorem remove_invalidates_above (F : TxFields τ) {l : TxList τ} (hr : l.Reachable F) (tx : τ)
    {order₁ : List (Σ _ : ℕ, τ)} {order₂ : List ℕ} (hf : (Op.remove tx order₁ order₂).Fits F l) :
    ∃ found invalids l', l.remove F tx order₁ order₂ = some ((found, invalids), l') ∧
      found = (l.txs.get (F.nonce tx)).isSome ∧ invalids.Nodup ∧
      (∀ tx', tx' ∈ invalids ↔ found = true ∧ l.strict = true ∧ l.txs.get (F.nonce tx') = some tx' ∧
        F.nonce tx < F.nonce tx') ∧
      ∀ n tx', l'.txs.get n = some tx' ↔ l.txs.get n = some tx' ∧ n ≠ F.nonce tx ∧
        ¬ (found = true ∧ l.strict = true ∧ F.nonce tx < n) := by
  obtain ⟨found, invalids, l', hrm, -, -, hfound, hnd, hmem, hget⟩ := hr.inv.remove tx hf
  exact ⟨found, invalids, l', hrm, hfound, hnd, hmem, hget⟩

/-- A strict list at nonces 3, 4 and 5: a `Remove` at 4 finds it, invalidates
5 above it and keeps 3. -/
theorem remove_invalidates_above_strict :
    ∃ l : TxList (ℕ × ℕ), l.Reachable ⟨Prod.fst, Prod.snd, Prod.snd, Prod.snd, Prod.snd⟩ ∧
      l.strict = true ∧ l.txs.items.keys = [5, 4, 3] ∧
      ∃ l', l.remove ⟨Prod.fst, Prod.snd, Prod.snd, Prod.snd, Prod.snd⟩ (4, 0) [⟨5, (5, 1)⟩, ⟨3, (3, 1)⟩] [3] =
          some ((true, [(5, 1)]), l') ∧
        ∀ n tx, l'.txs.get n = some tx ↔ n = 3 ∧ tx = (3, 1) := by
  obtain ⟨l₁, -, hr₁, hs₁, hi₁⟩ :=
    (Reachable.new (F := ⟨Prod.fst, Prod.snd, Prod.snd, Prod.snd, Prod.snd⟩) true).add_fresh (3, 1) 0 rfl
  obtain ⟨l₂, -, hr₂, hs₂, hi₂⟩ := hr₁.add_fresh (4, 1) 0 (by rw [TxSortedMap.get, hi₁]; rfl)
  obtain ⟨l, -, hr, hs, hi⟩ := hr₂.add_fresh (5, 1) 0 (by rw [TxSortedMap.get, hi₂, hi₁]; rfl)
  have hstrict : l.strict = true := by rw [hs, hs₂, hs₁]; rfl
  have hget : ∀ n, l.txs.get n =
      if n = 5 then some (5, 1) else if n = 4 then some (4, 1) else if n = 3 then some (3, 1) else none := by
    intro n
    rw [TxSortedMap.get, hi, hi₂, hi₁, TxSortedMap.lookup_insert_eq, TxSortedMap.lookup_insert_eq,
      TxSortedMap.lookup_insert_eq]
    rfl
  have hf : (Op.remove (4, 0) [⟨5, (5, 1)⟩, ⟨3, (3, 1)⟩] [3]).Fits
      ⟨Prod.fst, Prod.snd, Prod.snd, Prod.snd, Prod.snd⟩ l := by
    simp only [Op.Fits, hi, hi₂, hi₁]
    decide
  obtain ⟨found, invalids, l', hrm, hfound, hnd, hmem, hget'⟩ :=
    remove_invalidates_above _ hr (4, 0) hf
  dsimp only at hfound hmem hget'
  rw [hget] at hfound
  simp only [if_neg (by decide : (4 : ℕ) ≠ 5), if_pos, Option.isSome_some] at hfound
  subst hfound
  have hinv : invalids = [(5, 1)] := by
    apply List.perm_singleton.mp
    rw [List.perm_ext_iff_of_nodup hnd (List.nodup_singleton _)]
    intro tx
    rw [hmem, hget, hstrict, List.mem_singleton]
    obtain ⟨k, c⟩ := tx
    dsimp only
    split_ifs with h5 h4 h3
    · subst h5
      simp [eq_comm]
    · subst h4
      simp
    · subst h3
      simp
    · simp only [false_and, and_false, false_iff, Prod.mk.injEq, not_and]
      exact fun h => absurd h h5
  refine ⟨l, hr, hstrict, by rw [hi, hi₂, hi₁]; rfl, l', by rw [hrm, hinv], fun n tx => ?_⟩
  rw [hget', hget, hstrict]
  split_ifs with h5 h4 h3
  · subst h5
    simp
  · subst h4
    simp
  · subst h3
    simp [eq_comm]
  · exact ⟨fun h => absurd h.1 (by simp), fun h => absurd h.1 h3⟩

end TxList

end GoQuai.TxPool
