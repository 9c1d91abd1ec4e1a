import GoQuai.Lib.HeapOrder
import Mathlib

/-! # The price-sorted heaps of the transaction pool, core/tx_list.go

`txPricedList` keeps the pool's remote transactions in two `priceHeap`s, cheapest
first. The urgent heap is ordered by effective tip at its base fee, and the
floating heap by fee cap; `SetBaseFee` sets only the urgent heap's. A removed
transaction is not taken out of the heaps: the pool calls `Removed`, which bumps
`stales`, and the stale entries are dropped when they reach a heap's top
(`underpricedFor`, `Discard`) or when `Reheap` rebuilds both heaps from the pool.

The pool's `all` lookup enters as `remote`: `all.GetRemote(tx.Hash()) != nil`.
`Reheap` ranges over the pool's remote transactions in an order the runtime
picks, so it takes that list. `numSlots` is a field of the transaction, like its
nonce, fee cap and tip.

`Underpriced` answers, after it dropped stale tops, whether a transaction is no
better than every live transaction in the heaps (`Inv.underpriced`). `Discard`
gives back each live transaction it takes out of the heaps, or nothing when it
cannot free enough slots (`Inv.discard`). `Reheap` puts the cheapest fifth by the
urgent order into the floating heap (`reheap_spec`). Along every run of these
calls from `newTxPricedList` both heaps stay heaps, and the floating heap keeps
no base fee (`Reachable.inv`).
-/

namespace GoQuai.TxPool

open GoQuai.Heap

/-- What the priced list reads of a transaction: `Nonce`, `GasFeeCap`,
`GasTipCap` and `numSlots`. -/
structure PriceFields (τ : Type) where
  nonce : τ → ℕ
  gasFeeCap : τ → ℕ
  gasTipCap : τ → ℕ
  slots : τ → ℕ

/-- `priceHeap`. -/
structure PriceHeap (τ : Type) where
  baseFee : Option ℤ
  list : List τ

/-- `txPricedList`, without the pool's `all` lookup. -/
structure TxPricedList (τ : Type) where
  urgent : PriceHeap τ
  floating : PriceHeap τ
  stales : ℤ

/-- `urgentRatio`. -/
def urgentRatio : ℕ := 4

/-- `floatingRatio`. -/
def floatingRatio : ℕ := 1

variable {τ : Type} (P : PriceFields τ)

/-- `EffectiveGasTipValue`: the tip, capped by what the fee cap leaves above the
base fee. -/
def effectiveGasTip (baseFee : ℤ) (tx : τ) : ℤ := min (P.gasTipCap tx : ℤ) (P.gasFeeCap tx - baseFee)

/-- `priceHeap.cmp`: effective tips when the heap has a base fee, then fee caps,
then tips. -/
def cmp (baseFee : Option ℤ) (a b : τ) : Ordering :=
  let byCaps := (compare (P.gasFeeCap a) (P.gasFeeCap b)).then (compare (P.gasTipCap a) (P.gasTipCap b))
  match baseFee with
  | some baseFee => (compare (effectiveGasTip P baseFee a) (effectiveGasTip P baseFee b)).then byCaps
  | none => byCaps

/-- `priceHeap.Less`: `cmp` is `-1`, or `0` and the nonce is higher. -/
def Less (baseFee : Option ℤ) (a b : τ) : Prop :=
  cmp P baseFee a b = .lt ∨ cmp P baseFee a b = .eq ∧ P.nonce a > P.nonce b

instance (baseFee : Option ℤ) : DecidableRel (Less P baseFee) := fun a b =>
  inferInstanceAs (Decidable (cmp P baseFee a b = .lt ∨ cmp P baseFee a b = .eq ∧ P.nonce a > P.nonce b))

/-- The first key `cmp` compares: the effective tip at the heap's base fee, the
same for all transactions when the heap has none. -/
def firstKey (baseFee : Option ℤ) (tx : τ) : ℤ :=
  match baseFee with
  | some baseFee => effectiveGasTip P baseFee tx
  | none => 0

section Order

variable {P} {baseFee : Option ℤ} {a b c : τ}

theorem cmp_eq_lt_iff : cmp P baseFee a b = .lt ↔ firstKey P baseFee a < firstKey P baseFee b ∨
    firstKey P baseFee a = firstKey P baseFee b ∧ (P.gasFeeCap a < P.gasFeeCap b ∨
      P.gasFeeCap a = P.gasFeeCap b ∧ P.gasTipCap a < P.gasTipCap b) := by
  cases baseFee <;> simp [cmp, firstKey, Ordering.then_eq_lt, compare_lt_iff_lt]

theorem cmp_eq_eq_iff : cmp P baseFee a b = .eq ↔ firstKey P baseFee a = firstKey P baseFee b ∧
    P.gasFeeCap a = P.gasFeeCap b ∧ P.gasTipCap a = P.gasTipCap b := by
  cases baseFee <;> simp [cmp, firstKey, Ordering.then_eq_eq]

/-- `Less` is the lexicographic order on (first key, fee cap, tip) upwards and
the nonce downwards. -/
theorem less_iff : Less P baseFee a b ↔ firstKey P baseFee a < firstKey P baseFee b ∨
    firstKey P baseFee a = firstKey P baseFee b ∧ (P.gasFeeCap a < P.gasFeeCap b ∨
      P.gasFeeCap a = P.gasFeeCap b ∧ (P.gasTipCap a < P.gasTipCap b ∨
        P.gasTipCap a = P.gasTipCap b ∧ P.nonce b < P.nonce a)) := by
  rw [Less, cmp_eq_lt_iff, cmp_eq_eq_iff]
  omega

instance : Std.Asymm (Less P baseFee) where
  asymm a b hab hba := by
    rw [less_iff] at hab hba
    omega

instance : IsOrderConnected τ (Less P baseFee) where
  conn a b c hac := by
    simp only [less_iff] at hac ⊢
    omega

/-- "At least as good" (`cmp ≥ 0`) is transitive. -/
theorem cmp_ne_lt_trans (hab : cmp P baseFee a b ≠ .lt) (hbc : cmp P baseFee b c ≠ .lt) :
    cmp P baseFee a c ≠ .lt := by
  rw [Ne, cmp_eq_lt_iff] at hab hbc ⊢
  omega

theorem cmp_ne_lt_of_not_less (h : ¬ Less P baseFee a b) : cmp P baseFee a b ≠ .lt :=
  fun hlt => h (Or.inl hlt)

end Order

/-- A `priceHeap` as a `heap.Interface`. -/
def priceHeap (baseFee : Option ℤ) : Interface (List τ) τ := listInterface (Less P baseFee)

namespace TxPricedList

/-- `newTxPricedList`. -/
def new : TxPricedList τ := ⟨⟨none, []⟩, ⟨none, []⟩, 0⟩

/-- `Put`: a remote transaction goes on the urgent heap. -/
def put (tx : τ) (isLocal : Bool) (l : TxPricedList τ) : Option (TxPricedList τ) :=
  if isLocal then some l
  else (Heap.push (priceHeap P l.urgent.baseFee) tx l.urgent.list).map fun list =>
    { l with urgent := { l.urgent with list } }

/-- The loop of `Reheap` that pops `count` transactions off a heap. -/
def popInto (baseFee : Option ℤ) : ℕ → List τ → Option (List τ × List τ)
  | 0, list => some ([], list)
  | count + 1, list =>
      (Heap.pop (priceHeap P baseFee) list).bind fun (tx, list) =>
        (popInto baseFee count list).map fun (popped, list) => (tx :: popped, list)

/-- `Reheap`: `remotes` lists the pool's remote transactions as `Range` visits
them. The worse fifth of the urgent heap moves to the floating heap. -/
def reheap (remotes : List τ) (l : TxPricedList τ) : Option (TxPricedList τ) :=
  (Heap.init (priceHeap P l.urgent.baseFee) remotes).bind fun urgent =>
    let floatingCount := urgent.length * floatingRatio / (urgentRatio + floatingRatio)
    (popInto P l.urgent.baseFee floatingCount urgent).bind fun (floating, urgent) =>
      (Heap.init (priceHeap P l.floating.baseFee) floating).map fun floating =>
        ⟨{ l.urgent with list := urgent }, { l.floating with list := floating }, 0⟩

/-- `Removed`: rebuild once more than a quarter of the entries are stale. -/
def removed (count : ℤ) (remotes : List τ) (l : TxPricedList τ) : Option (TxPricedList τ) :=
  let l := { l with stales := l.stales + count }
  if l.stales ≤ (((l.urgent.list.length + l.floating.list.length) / 4 : ℕ) : ℤ) then some l
  else l.reheap P remotes

/-- `SetBaseFee`. -/
def setBaseFee (baseFee : Option ℤ) (remotes : List τ) (l : TxPricedList τ) : Option (TxPricedList τ) :=
  { l with urgent := { l.urgent with baseFee } }.reheap P remotes

/-- The loop of `underpricedFor`: pop the stale transactions off the top of a
heap, counting each down from `stales`. -/
def dropStale (remote : τ → Bool) (baseFee : Option ℤ) (list : List τ) (stales : ℤ) : Option (List τ × ℤ) :=
  match list[0]? with
  | none => some (list, stales)
  | some head =>
      if remote head then some (list, stales)
      else
        match h : Heap.pop (priceHeap P baseFee) list with
        | none => none
        | some (_, list') => dropStale remote baseFee list' (stales - 1)
termination_by list.length
decreasing_by
  have := (perm_of_pop h).length_eq
  simp only [List.length_cons] at this
  omega

/-- `underpricedFor`: whether the live top of a heap is at least as good as `tx`,
once the stale tops are gone. -/
def underpricedFor (remote : τ → Bool) (h : PriceHeap τ) (tx : τ) (stales : ℤ) :
    Option (Bool × PriceHeap τ × ℤ) :=
  (dropStale P remote h.baseFee h.list stales).map fun (list, stales) =>
    (match list[0]? with
      | none => false
      | some head => cmp P h.baseFee head tx != .lt, { h with list }, stales)

/-- `Underpriced`. Go's `&&` and `||` stop early, so the floating heap is cleaned
only when the urgent heap does not decide the answer. -/
def underpriced (remote : τ → Bool) (tx : τ) (l : TxPricedList τ) : Option (Bool × TxPricedList τ) :=
  (underpricedFor P remote l.urgent tx l.stales).bind fun (u, urgent, stales) =>
    if u || urgent.list.length == 0 then
      (underpricedFor P remote l.floating tx stales).map fun (f, floating, stales) =>
        ((f || floating.list.length == 0) && (urgent.list.length != 0 || floating.list.length != 0),
          ⟨urgent, floating, stales⟩)
    else some (false, { l with urgent, stales })

/-- The loop of `Discard`. While slots are wanted, it moves the top of the
urgent heap to the floating heap if the urgent heap is more than four times the
floating one, and otherwise drops the top of the floating heap. Stale tops are
skipped and counted. -/
def discardLoop (remote : τ → Bool) (slots : ℤ) (drop : List τ) (l : TxPricedList τ) :
    Option (ℤ × List τ × TxPricedList τ) :=
  if slots > 0 then
    if l.urgent.list.length * floatingRatio > l.floating.list.length * urgentRatio ∨ floatingRatio = 0 then
      match _h : Heap.pop (priceHeap P l.urgent.baseFee) l.urgent.list with
      | none => none
      | some (tx, urgent) =>
          if remote tx = false then
            discardLoop remote slots drop { l with urgent := { l.urgent with list := urgent }, stales := l.stales - 1 }
          else
            match _h' : Heap.push (priceHeap P l.floating.baseFee) tx l.floating.list with
            | none => none
            | some floating => discardLoop remote slots drop
                { l with urgent := { l.urgent with list := urgent }, floating := { l.floating with list := floating } }
    else if l.floating.list.length = 0 then some (slots, drop, l)
    else
      match _h : Heap.pop (priceHeap P l.floating.baseFee) l.floating.list with
      | none => none
      | some (tx, floating) =>
          if remote tx = false then
            discardLoop remote slots drop
              { l with floating := { l.floating with list := floating }, stales := l.stales - 1 }
          else discardLoop remote (slots - P.slots tx) (drop ++ [tx]) { l with floating := { l.floating with list := floating } }
  else some (slots, drop, l)
termination_by 2 * l.urgent.list.length + l.floating.list.length
decreasing_by
  all_goals have hpop := (perm_of_pop _h).length_eq
  all_goals simp only [List.length_cons] at hpop
  · omega
  · have hpush := (perm_of_push _h').length_eq
    simp only [List.length_append, List.length_singleton] at hpush
    omega
  · omega
  · omega

/-- `Discard`: when not forced and still short of room, it puts the dropped
transactions back on the urgent heap and returns none. -/
def discard (remote : τ → Bool) (slots : ℤ) (force : Bool) (l : TxPricedList τ) :
    Option ((List τ × Bool) × TxPricedList τ) :=
  (discardLoop P remote slots [] l).bind fun (slots, drop, l) =>
    if slots > 0 ∧ force = false then
      (drop.foldlM (fun urgent tx => Heap.push (priceHeap P l.urgent.baseFee) tx urgent) l.urgent.list).map
        fun urgent => (([], false), { l with urgent := { l.urgent with list := urgent } })
    else some ((drop, true), l)

/-- The calls the pool makes on its priced list, with the pool's lookup and its
remote transactions as each call sees them. -/
inductive Op (τ : Type)
  | put (tx : τ) (isLocal : Bool)
  | removed (count : ℤ) (remotes : List τ)
  | underpriced (remote : τ → Bool) (tx : τ)
  | discard (remote : τ → Bool) (slots : ℤ) (force : Bool)
  | reheap (remotes : List τ)
  | setBaseFee (baseFee : Option ℤ) (remotes : List τ)

/-- A call, its answer dropped. -/
def Op.apply : Op τ → TxPricedList τ → Option (TxPricedList τ)
  | .put tx isLocal, l => l.put P tx isLocal
  | .removed count remotes, l => l.removed P count remotes
  | .underpriced remote tx, l => (l.underpriced P remote tx).map Prod.snd
  | .discard remote slots force, l => (l.discard P remote slots force).map Prod.snd
  | .reheap remotes, l => l.reheap P remotes
  | .setBaseFee baseFee remotes, l => l.setBaseFee P baseFee remotes

-- Generate the equation lemmas of these definitions once, here, rather than in
-- each of the proofs below that unfold them while they are elaborated in parallel.
section
attribute [local simp] Op.apply
end

/-- The priced lists the pool reaches from `newTxPricedList`. -/
inductive Reachable : TxPricedList τ → Prop
  | new : Reachable new
  | step {l l' : TxPricedList τ} (op : Op τ) : Reachable l → op.apply P l = some l' → Reachable l'

/-! ## Underpriced -/

section Underpriced

/-- The invariant of `txPricedList`: each heap is a heap for the order of its
own base fee. -/
structure Inv (l : TxPricedList τ) : Prop where
  urgent : IsHeap (Less P l.urgent.baseFee) l.urgent.list
  floating : IsHeap (Less P l.floating.baseFee) l.floating.list

variable {P} {baseFee : Option ℤ}

/-- The loop of `underpricedFor` pops only stale transactions, counting them,
and stops at a live top or an empty heap. -/
theorem dropStale_spec (remote : τ → Bool) {L : List τ} (hh : IsHeap (Less P baseFee) L) (stales : ℤ) :
    ∃ gone L', dropStale P remote baseFee L stales = some (L', stales - gone.length) ∧ (gone ++ L').Perm L ∧
      (∀ x ∈ gone, remote x = false) ∧ IsHeap (Less P baseFee) L' ∧ ∀ x, L'[0]? = some x → remote x = true := by
  cases h0 : L[0]? with
  | none =>
      refine ⟨[], L, ?_, List.Perm.refl _, by simp, hh, by simp [h0]⟩
      rw [dropStale, h0]
      simp
  | some head =>
      by_cases hr : remote head = true
      · refine ⟨[], L, ?_, List.Perm.refl _, by simp, hh, fun x hx => ?_⟩
        · rw [dropStale, h0]
          simp [hr]
        · rw [h0, Option.some_inj] at hx
          exact hx ▸ hr
      · have hne : L ≠ [] := fun hnil => by simp [hnil] at h0
        obtain ⟨x, L₁, hpop, hx0, -, hperm, hh₁⟩ := pop_spec hh hne
        rw [h0, Option.some_inj] at hx0
        subst hx0
        have hpop' : Heap.pop (priceHeap P baseFee) L = some (head, L₁) := hpop
        have hlen : L₁.length < L.length := by
          have := hperm.length_eq
          simp only [List.length_cons] at this
          omega
        obtain ⟨gone, L', hd, hperm', hgone, hh', htop⟩ := dropStale_spec remote hh₁ (stales - 1)
        refine ⟨head :: gone, L', ?_, ((hperm'.cons head).trans hperm), ?_, hh', htop⟩
        · rw [dropStale, h0]
          simp only [hr, Bool.false_eq_true, if_false]
          split
          · rename_i hnone
            rw [hnone] at hpop'
            cases hpop'
          · rename_i y L₂ hsome
            rw [hsome, Option.some_inj, Prod.mk.injEq] at hpop'
            obtain ⟨rfl, rfl⟩ := hpop'
            rw [hd, List.length_cons]
            congr 2
            push_cast
            ring
        · intro y hy
          rcases List.mem_cons.mp hy with rfl | hy
          · simpa using hr
          · exact hgone y hy
termination_by L.length

/-- `underpricedFor` answers whether the heap holds a live transaction and `tx`
is no better than each one; it takes only stale transactions out. -/
theorem underpricedFor_spec (remote : τ → Bool) {h : PriceHeap τ} (hh : IsHeap (Less P h.baseFee) h.list) (tx : τ) (stales : ℤ) :
    ∃ b gone L', underpricedFor P remote h tx stales = some (b, { h with list := L' }, stales - gone.length) ∧
      (gone ++ L').Perm h.list ∧ (∀ x ∈ gone, remote x = false) ∧ IsHeap (Less P h.baseFee) L' ∧
      (L' = [] ↔ ∀ x ∈ h.list, remote x = false) ∧
      (b = true ↔ (∃ x ∈ h.list, remote x = true) ∧ ∀ x ∈ h.list, remote x = true → cmp P h.baseFee x tx ≠ .lt) := by
  obtain ⟨gone, L', hd, hperm, hgone, hh', htop⟩ := dropStale_spec remote hh stales
  -- a live transaction of the heap is not among the stale ones popped
  have hlive : ∀ x ∈ h.list, remote x = true → x ∈ L' := fun x hx hr => by
    rcases List.mem_append.mp (hperm.symm.subset hx) with hg | hL
    · rw [hgone x hg] at hr
      cases hr
    · exact hL
  cases hL' : L' with
  | nil =>
      subst hL'
      have hstale : ∀ x ∈ h.list, remote x = false := fun x hx => by
        cases hr : remote x
        · rfl
        · exact absurd (hlive x hx hr) List.not_mem_nil
      refine ⟨false, gone, [], by simp [underpricedFor, hd], hperm, hgone, hh', by simpa using hstale, ?_⟩
      simp only [Bool.false_eq_true, false_iff, not_and]
      rintro ⟨x, hx, hr⟩
      rw [hstale x hx] at hr
      cases hr
  | cons head rest =>
      subst hL'
      have hr : remote head = true := htop head rfl
      have hmem : head ∈ h.list := hperm.subset (List.mem_append_right _ List.mem_cons_self)
      -- the live top is at least as good as every live transaction
      have hmin : ∀ x ∈ h.list, remote x = true → cmp P h.baseFee x head ≠ .lt := fun x hx hrx =>
        cmp_ne_lt_of_not_less (hh'.not_before_first rfl x (hlive x hx hrx))
      refine ⟨cmp P h.baseFee head tx != .lt, gone, head :: rest, by simp [underpricedFor, hd], hperm, hgone, hh',
        ⟨nofun, fun hall => absurd (hall head hmem) (by simp [hr])⟩, ?_⟩
      simp only [bne_iff_ne, ne_eq]
      constructor
      · intro hb
        exact ⟨⟨head, hmem, hr⟩, fun x hx hrx => cmp_ne_lt_trans (hmin x hx hrx) hb⟩
      · rintro ⟨-, hall⟩
        exact hall head hmem hr

/-- One half of `Underpriced`: the heap's answer, or an empty heap after the
stale tops are gone, says exactly that `tx` is no better than each live one. -/
theorem underpricedFor_or_empty {remote : τ → Bool} {tx : τ} {b : Bool} {L L' : List τ}
    (hempty : L' = [] ↔ ∀ x ∈ L, remote x = false)
    (hb : b = true ↔ (∃ x ∈ L, remote x = true) ∧ ∀ x ∈ L, remote x = true → cmp P baseFee x tx ≠ .lt) :
    (b || L'.length == 0) = true ↔ ∀ x ∈ L, remote x = true → cmp P baseFee x tx ≠ .lt := by
  rw [Bool.or_eq_true, hb, beq_iff_eq, List.length_eq_zero_iff, hempty]
  constructor
  · rintro (⟨-, hall⟩ | hstale) x hx hr
    · exact hall x hx hr
    · rw [hstale x hx] at hr
      cases hr
  · intro hall
    by_cases hlive : ∃ x ∈ L, remote x = true
    · exact Or.inl ⟨hlive, hall⟩
    · refine Or.inr fun x hx => ?_
      cases hr : remote x
      · rfl
      · exact absurd ⟨x, hx, hr⟩ hlive

theorem not_stale_iff {remote : τ → Bool} {L : List τ} :
    (¬ ∀ x ∈ L, remote x = false) ↔ ∃ x ∈ L, remote x = true := by
  simp

theorem perm_stale_append {a b c d : List τ} : (a ++ b ++ c ++ d).Perm (a ++ c ++ (b ++ d)) := by
  simp only [List.append_assoc]
  exact List.Perm.append_left a (List.perm_append_comm_assoc b c d)

/-- `Underpriced` answers whether the heaps hold a live transaction and `tx` is
no better than any live one, each heap compared by its own order. It takes only
stale transactions out of the heaps, and counts each. -/
theorem Inv.underpriced {l : TxPricedList τ} (hl : l.Inv P) (remote : τ → Bool) (tx : τ) :
    ∃ b l', l.underpriced P remote tx = some (b, l') ∧ l'.Inv P ∧
      (b = true ↔ (∃ x ∈ l.urgent.list ++ l.floating.list, remote x = true) ∧
        (∀ x ∈ l.urgent.list, remote x = true → cmp P l.urgent.baseFee x tx ≠ .lt) ∧
        (∀ x ∈ l.floating.list, remote x = true → cmp P l.floating.baseFee x tx ≠ .lt)) ∧
      l'.urgent.baseFee = l.urgent.baseFee ∧ l'.floating.baseFee = l.floating.baseFee ∧
      ∃ gone, (gone ++ l'.urgent.list ++ l'.floating.list).Perm (l.urgent.list ++ l.floating.list) ∧
        (∀ x ∈ gone, remote x = false) ∧ l'.stales = l.stales - gone.length := by
  obtain ⟨u, goneU, U', hu, hpermU, hgoneU, hhU, hemptyU, hbU⟩ := underpricedFor_spec remote hl.urgent tx l.stales
  have hallU := underpricedFor_or_empty hemptyU hbU
  by_cases hc : (u || U'.length == 0) = true
  · -- the urgent heap does not decide: the floating heap is asked too
    obtain ⟨f, goneF, F', hf, hpermF, hgoneF, hhF, hemptyF, hbF⟩ :=
      underpricedFor_spec remote hl.floating tx (l.stales - goneU.length)
    have hallF := underpricedFor_or_empty hemptyF hbF
    refine ⟨(f || F'.length == 0) && (U'.length != 0 || F'.length != 0),
      ⟨{ l.urgent with list := U' }, { l.floating with list := F' }, l.stales - goneU.length - goneF.length⟩,
      by simp only [TxPricedList.underpriced, hu, Option.bind_some, hc, if_true, hf, Option.map_some], ⟨hhU, hhF⟩, ?_, rfl, rfl,
      goneU ++ goneF, ?_, ?_, ?_⟩
    · rw [Bool.and_eq_true, hallF, Bool.or_eq_true, bne_iff_ne, bne_iff_ne, Ne, Ne, List.length_eq_zero_iff,
        List.length_eq_zero_iff, hemptyU, hemptyF, not_stale_iff, not_stale_iff]
      have hU := hallU.mp hc
      constructor
      · rintro ⟨hall, hlive⟩
        refine ⟨?_, hU, hall⟩
        rcases hlive with ⟨x, hx, hr⟩ | ⟨x, hx, hr⟩
        · exact ⟨x, List.mem_append_left _ hx, hr⟩
        · exact ⟨x, List.mem_append_right _ hx, hr⟩
      · rintro ⟨⟨x, hx, hr⟩, -, hall⟩
        refine ⟨hall, ?_⟩
        rcases List.mem_append.mp hx with hx | hx
        · exact Or.inl ⟨x, hx, hr⟩
        · exact Or.inr ⟨x, hx, hr⟩
    · exact perm_stale_append.trans (hpermU.append hpermF)
    · intro x hx
      rcases List.mem_append.mp hx with hx | hx
      · exact hgoneU x hx
      · exact hgoneF x hx
    · simp only [List.length_append]
      push_cast
      ring
  · -- the urgent heap decides: no
    refine ⟨false, { l with urgent := { l.urgent with list := U' }, stales := l.stales - goneU.length },
      by simp only [TxPricedList.underpriced, hu, Option.bind_some]; rw [if_neg hc], ⟨hhU, hl.floating⟩, ?_, rfl, rfl, goneU, hpermU.append_right _, hgoneU, rfl⟩
    simp only [Bool.false_eq_true, false_iff, not_and]
    exact fun _ hall _ => hc (hallU.mpr hall)

end Underpriced

/-! ## Discard -/

section Discard

variable {P}

/-- What one round of the loop keeps: the two heaps, less the stale
transactions dropped, and the live ones taken out. -/
theorem perm_round {more gone U F U₁ F₁ : List τ} (x : τ)
    (h : (more ++ gone ++ U ++ F).Perm (U₁ ++ F₁)) :
    (more ++ (x :: gone) ++ U ++ F).Perm (x :: (U₁ ++ F₁)) := by
  have h₁ : (more ++ (x :: gone) ++ U ++ F) = more ++ x :: (gone ++ U ++ F) := by simp
  rw [h₁]
  refine List.perm_middle.trans (List.Perm.cons x ?_)
  simpa only [List.append_assoc] using h

theorem discardLoop_spec (remote : τ → Bool) (slots : ℤ) (drop : List τ) {l : TxPricedList τ} (hl : l.Inv P) :
    ∃ slots' more gone l', discardLoop P remote slots drop l = some (slots', drop ++ more, l') ∧ l'.Inv P ∧
      (∀ x ∈ more, remote x = true) ∧ (∀ x ∈ gone, remote x = false) ∧
      (more ++ gone ++ l'.urgent.list ++ l'.floating.list).Perm (l.urgent.list ++ l.floating.list) ∧
      l'.stales = l.stales - gone.length ∧ slots' = slots - (more.map P.slots).sum ∧
      l'.urgent.baseFee = l.urgent.baseFee ∧ l'.floating.baseFee = l.floating.baseFee ∧
      (0 < slots' → l'.urgent.list = [] ∧ l'.floating.list = []) := by
  rw [discardLoop]
  by_cases hs : slots > 0
  swap
  · exact ⟨slots, [], [], l, by rw [if_neg hs, List.append_nil], hl, by simp, by simp, by simp, by simp, by simp,
      rfl, rfl, fun h => absurd h hs⟩
  rw [if_pos hs]
  by_cases hmove : l.urgent.list.length * floatingRatio > l.floating.list.length * urgentRatio ∨ floatingRatio = 0
  · -- the top of the urgent heap moves to the floating heap, or is stale
    rw [if_pos hmove]
    have hne : l.urgent.list ≠ [] := fun h => by simp [h, floatingRatio] at hmove
    obtain ⟨x, U₁, hpop, -, -, hpermU, hhU⟩ := pop_spec hl.urgent hne
    have hpop' : Heap.pop (priceHeap P l.urgent.baseFee) l.urgent.list = some (x, U₁) := hpop
    have hlenU : U₁.length + 1 = l.urgent.list.length := by simpa using hpermU.length_eq
    split
    · rename_i hnone
      rw [hnone] at hpop'
      cases hpop'
    rename_i y U₂ hsome
    rw [hsome, Option.some_inj, Prod.mk.injEq] at hpop'
    obtain ⟨rfl, rfl⟩ := hpop'
    by_cases hr : remote y = false
    · rw [if_pos hr]
      obtain ⟨slots', more, gone, l', hrun, hl', hmore, hgone, hperm, hst, hsl, hbu, hbf, hempty⟩ :=
        discardLoop_spec remote slots drop
          (l := { l with urgent := { l.urgent with list := U₂ }, stales := l.stales - 1 }) ⟨hhU, hl.floating⟩
      refine ⟨slots', more, y :: gone, l', hrun, hl', hmore, ?_, ?_, ?_, hsl, hbu, hbf, hempty⟩
      · intro z hz
        rcases List.mem_cons.mp hz with rfl | hz
        · exact hr
        · exact hgone z hz
      · exact (perm_round y hperm).trans (hpermU.append_right _)
      · rw [hst, List.length_cons]
        push_cast
        ring
    · rw [if_neg hr]
      obtain ⟨F₁, hpush, hpermF, hhF⟩ := push_spec hl.floating y
      have hpush' : Heap.push (priceHeap P l.floating.baseFee) y l.floating.list = some F₁ := hpush
      have hlenF : F₁.length = l.floating.list.length + 1 := by simpa using hpermF.length_eq
      split
      · rename_i hnone
        rw [hnone] at hpush'
        cases hpush'
      rename_i F₂ hsome
      rw [hsome, Option.some_inj] at hpush'
      subst hpush'
      obtain ⟨slots', more, gone, l', hrun, hl', hmore, hgone, hperm, hst, hsl, hbu, hbf, hempty⟩ :=
        discardLoop_spec remote slots drop
          (l := { l with urgent := { l.urgent with list := U₂ }, floating := { l.floating with list := F₂ } })
          ⟨hhU, hhF⟩
      refine ⟨slots', more, gone, l', hrun, hl', hmore, hgone, ?_, hst, hsl, hbu, hbf, hempty⟩
      -- the moved transaction left the urgent heap for the floating one
      have hmoved : (U₂ ++ (l.floating.list ++ [y])).Perm ((y :: U₂) ++ l.floating.list) := by
        rw [← List.append_assoc]
        exact List.perm_append_singleton _ _
      exact hperm.trans ((hpermF.append_left U₂).trans (hmoved.trans (hpermU.append_right _)))
  · rw [if_neg hmove]
    by_cases hf0 : l.floating.list.length = 0
    · -- both heaps are empty: the urgent one is at most four times the empty floating one
      have hu0 : l.urgent.list.length = 0 := by
        simp only [floatingRatio, urgentRatio, hf0] at hmove
        omega
      exact ⟨slots, [], [], l, by rw [if_pos hf0, List.append_nil], hl, by simp, by simp, by simp, by simp, by simp,
        rfl, rfl, fun _ => ⟨List.eq_nil_of_length_eq_zero hu0, List.eq_nil_of_length_eq_zero hf0⟩⟩
    rw [if_neg hf0]
    -- the top of the floating heap is dropped, or is stale
    have hne : l.floating.list ≠ [] := fun h => hf0 (by rw [h]; rfl)
    obtain ⟨x, F₁, hpop, -, -, hpermF, hhF⟩ := pop_spec hl.floating hne
    have hpop' : Heap.pop (priceHeap P l.floating.baseFee) l.floating.list = some (x, F₁) := hpop
    have hlenF : F₁.length + 1 = l.floating.list.length := by simpa using hpermF.length_eq
    split
    · rename_i hnone
      rw [hnone] at hpop'
      cases hpop'
    rename_i y F₂ hsome
    rw [hsome, Option.some_inj, Prod.mk.injEq] at hpop'
    obtain ⟨rfl, rfl⟩ := hpop'
    -- the floating heap's entries, with its top taken out first
    have hfirst : (y :: (l.urgent.list ++ F₂)).Perm (l.urgent.list ++ l.floating.list) :=
      List.perm_middle.symm.trans (hpermF.append_left _)
    by_cases hr : remote y = false
    · rw [if_pos hr]
      obtain ⟨slots', more, gone, l', hrun, hl', hmore, hgone, hperm, hst, hsl, hbu, hbf, hempty⟩ :=
        discardLoop_spec remote slots drop
          (l := { l with floating := { l.floating with list := F₂ }, stales := l.stales - 1 }) ⟨hl.urgent, hhF⟩
      refine ⟨slots', more, y :: gone, l', hrun, hl', hmore, ?_, (perm_round y hperm).trans hfirst, ?_, hsl,
        hbu, hbf, hempty⟩
      · intro z hz
        rcases List.mem_cons.mp hz with rfl | hz
        · exact hr
        · exact hgone z hz
      · rw [hst, List.length_cons]
        push_cast
        ring
    · rw [if_neg hr]
      obtain ⟨slots', more, gone, l', hrun, hl', hmore, hgone, hperm, hst, hsl, hbu, hbf, hempty⟩ :=
        discardLoop_spec remote (slots - P.slots y) (drop ++ [y])
          (l := { l with floating := { l.floating with list := F₂ } }) ⟨hl.urgent, hhF⟩
      refine ⟨slots', y :: more, gone, l', by rw [hrun]; simp, hl', ?_, hgone, ?_, hst, ?_, hbu, hbf, hempty⟩
      · intro z hz
        rcases List.mem_cons.mp hz with rfl | hz
        · simpa using hr
        · exact hmore z hz
      · exact (List.Perm.cons y hperm).trans hfirst
      · rw [hsl, List.map_cons, List.sum_cons]
        push_cast
        ring
termination_by 2 * l.urgent.list.length + l.floating.list.length
decreasing_by all_goals omega

/-- The loop that puts the dropped transactions back on the urgent heap. -/
theorem pushAll_spec {baseFee : Option ℤ} : ∀ (drop : List τ) {L : List τ}, IsHeap (Less P baseFee) L →
    ∃ L', drop.foldlM (fun urgent tx => Heap.push (priceHeap P baseFee) tx urgent) L = some L' ∧
      L'.Perm (L ++ drop) ∧ IsHeap (Less P baseFee) L'
  | [], L, hh => ⟨L, rfl, by simp, hh⟩
  | x :: drop, L, hh => by
      obtain ⟨L₁, hp, hperm₁, hh₁⟩ := push_spec hh x
      have hp' : Heap.push (priceHeap P baseFee) x L = some L₁ := hp
      obtain ⟨L', hf, hperm', hh'⟩ := pushAll_spec drop hh₁
      refine ⟨L', ?_, ?_, hh'⟩
      · rw [List.foldlM_cons, hp']
        exact hf
      · simpa using hperm'.trans (hperm₁.append_right drop)

/-- The live transactions among entries split into live and stale ones. -/
theorem filter_remote_perm {remote : τ → Bool} {more gone L : List τ} (hperm : (more ++ gone).Perm L)
    (hmore : ∀ x ∈ more, remote x = true) (hgone : ∀ x ∈ gone, remote x = false) : (L.filter remote).Perm more := by
  have hsplit : (more ++ gone).filter remote = more := by
    rw [List.filter_append, List.filter_eq_self.mpr hmore, List.filter_eq_nil_iff.mpr (by simpa using hgone),
      List.append_nil]
  exact hsplit ▸ hperm.symm.filter remote

/-- `Discard` hands back live transactions only, and only when it frees enough
slots or is forced; it fails only when all live transactions together are short
of the slots. Every live transaction it does not hand back stays in the heaps,
and the only other entries it takes out are stale ones, each counted. -/
theorem Inv.discard {l : TxPricedList τ} (hl : l.Inv P) (remote : τ → Bool) (slots : ℤ) (force : Bool) :
    ∃ drop ok l', l.discard P remote slots force = some ((drop, ok), l') ∧ l'.Inv P ∧
      (∀ x ∈ drop, remote x = true) ∧
      (ok = false → drop = [] ∧ force = false ∧
        ((((l.urgent.list ++ l.floating.list).filter remote).map P.slots).sum : ℤ) < slots) ∧
      (ok = true → force = true ∨ slots ≤ (drop.map P.slots).sum) ∧
      l'.urgent.baseFee = l.urgent.baseFee ∧ l'.floating.baseFee = l.floating.baseFee ∧
      ∃ gone, (drop ++ gone ++ l'.urgent.list ++ l'.floating.list).Perm (l.urgent.list ++ l.floating.list) ∧
        (∀ x ∈ gone, remote x = false) ∧ l'.stales = l.stales - gone.length := by
  obtain ⟨slots', more, gone, l₁, hrun, hl₁, hmore, hgone, hperm, hst, hsl, hbu, hbf, hempty⟩ :=
    discardLoop_spec remote slots [] hl
  rw [List.nil_append] at hrun
  by_cases hshort : slots' > 0 ∧ force = false
  · -- short of room: what was dropped goes back on the urgent heap
    obtain ⟨U, hpush, hpermU, hhU⟩ := pushAll_spec more hl₁.urgent
    refine ⟨[], false, { l₁ with urgent := { l₁.urgent with list := U } },
      by simp only [TxPricedList.discard, hrun, Option.bind_some, if_pos hshort, hpush, Option.map_some],
      ⟨hhU, hl₁.floating⟩, by simp, fun _ => ⟨rfl, hshort.2, ?_⟩, nofun, hbu, hbf, gone, ?_, hgone, hst⟩
    · -- the loop ran both heaps dry, so it dropped every live transaction
      obtain ⟨hu, hf⟩ := hempty hshort.1
      rw [hu, hf, List.append_nil, List.append_nil] at hperm
      rw [((filter_remote_perm hperm hmore hgone).map P.slots).sum_eq]
      omega
    have hback : (gone ++ U).Perm (more ++ gone ++ l₁.urgent.list) :=
      (hpermU.append_left gone).trans (by
        rw [← List.append_assoc]
        exact List.perm_append_comm.trans (by simp))
    simpa only [List.nil_append] using (hback.append_right _).trans hperm
  · refine ⟨more, true, l₁, by simp only [TxPricedList.discard, hrun, Option.bind_some, if_neg hshort],
      hl₁, hmore, nofun, fun _ => ?_, hbu, hbf, gone, hperm, hgone, hst⟩
    cases force
    · right
      have : ¬ slots' > 0 := fun h => hshort ⟨h, rfl⟩
      omega
    · exact Or.inl rfl

end Discard

/-! ## Reheap and runs -/

section Runs

variable {P}

/-- The loop of `Reheap` pops the `count` cheapest transactions, each at least
as cheap as everything left. -/
theorem popInto_spec {baseFee : Option ℤ} : ∀ (count : ℕ) {L : List τ}, IsHeap (Less P baseFee) L →
    count ≤ L.length →
    ∃ popped L', popInto P baseFee count L = some (popped, L') ∧ (popped ++ L').Perm L ∧
      popped.length = count ∧ IsHeap (Less P baseFee) L' ∧ ∀ f ∈ popped, ∀ u ∈ L', ¬ Less P baseFee u f
  | 0, L, hh, _ => ⟨[], L, rfl, by simp, rfl, hh, by simp⟩
  | count + 1, L, hh, hc => by
      have hne : L ≠ [] := fun h => by simp [h] at hc
      obtain ⟨x, L₁, hpop, -, hmin, hperm, hh₁⟩ := pop_spec hh hne
      have hpop' : Heap.pop (priceHeap P baseFee) L = some (x, L₁) := hpop
      have hlen : L₁.length + 1 = L.length := by simpa using hperm.length_eq
      obtain ⟨popped, L', hp, hperm', hlen', hh', hord⟩ := popInto_spec count hh₁ (by omega)
      refine ⟨x :: popped, L', by simp [popInto, hpop', hp], (hperm'.cons x).trans hperm, by simp [hlen'], hh',
        fun f hf u hu => ?_⟩
      rcases List.mem_cons.mp hf with rfl | hf
      · exact hmin u (hperm.subset (List.mem_cons_of_mem _ (hperm'.subset (List.mem_append_right _ hu))))
      · exact hord f hf u hu

/-- `Reheap` rebuilds both heaps from the pool's remote transactions. The
floating heap gets the cheapest fifth by the urgent heap's order, and the urgent
heap keeps the rest. -/
theorem reheap_spec (l : TxPricedList τ) (remotes : List τ) :
    ∃ l', l.reheap P remotes = some l' ∧ l'.Inv P ∧ l'.stales = 0 ∧
      l'.urgent.baseFee = l.urgent.baseFee ∧ l'.floating.baseFee = l.floating.baseFee ∧
      (l'.floating.list ++ l'.urgent.list).Perm remotes ∧ l'.floating.list.length = remotes.length / 5 ∧
      ∀ f ∈ l'.floating.list, ∀ u ∈ l'.urgent.list, ¬ Less P l.urgent.baseFee u f := by
  obtain ⟨U₀, hi, hperm₀, hh₀⟩ := init_spec (r := Less P l.urgent.baseFee) remotes
  have hi' : Heap.init (priceHeap P l.urgent.baseFee) remotes = some U₀ := hi
  obtain ⟨popped, U₁, hp, hperm₁, hlen₁, hh₁, hord⟩ :=
    popInto_spec (U₀.length * floatingRatio / (urgentRatio + floatingRatio)) hh₀
      (by simp only [floatingRatio, urgentRatio]; omega)
  obtain ⟨F, hf, hpermF, hhF⟩ := init_spec (r := Less P l.floating.baseFee) popped
  have hf' : Heap.init (priceHeap P l.floating.baseFee) popped = some F := hf
  refine ⟨⟨{ l.urgent with list := U₁ }, { l.floating with list := F }, 0⟩,
    by simp only [TxPricedList.reheap, hi', Option.bind_some, hp, hf', Option.map_some], ⟨hh₁, hhF⟩, rfl, rfl,
    rfl, ((hpermF.append_right U₁).trans hperm₁).trans hperm₀, ?_, fun f hf u hu => hord f (hpermF.subset hf) u hu⟩
  rw [hpermF.length_eq, hlen₁, hperm₀.length_eq]
  simp [floatingRatio, urgentRatio]

theorem Inv.put {l : TxPricedList τ} (hl : l.Inv P) (tx : τ) (isLocal : Bool) :
    ∃ l', l.put P tx isLocal = some l' ∧ l'.Inv P ∧ l'.urgent.baseFee = l.urgent.baseFee ∧
      l'.floating = l.floating := by
  cases isLocal
  · obtain ⟨U, hp, -, hh⟩ := push_spec hl.urgent tx
    have hp' : Heap.push (priceHeap P l.urgent.baseFee) tx l.urgent.list = some U := hp
    exact ⟨{ l with urgent := { l.urgent with list := U } }, by simp [TxPricedList.put, hp'], ⟨hh, hl.floating⟩,
      rfl, rfl⟩
  · exact ⟨l, by simp [TxPricedList.put], hl, rfl, rfl⟩

theorem Inv.removed {l : TxPricedList τ} (hl : l.Inv P) (count : ℤ) (remotes : List τ) {l' : TxPricedList τ}
    (h : l.removed P count remotes = some l') :
    l'.Inv P ∧ l'.urgent.baseFee = l.urgent.baseFee ∧ l'.floating.baseFee = l.floating.baseFee := by
  unfold TxPricedList.removed at h
  dsimp only at h
  split_ifs at h
  · cases h
    exact ⟨⟨hl.urgent, hl.floating⟩, rfl, rfl⟩
  · obtain ⟨l'', hre, hinv, -, hbu, hbf, -⟩ := reheap_spec (P := P) { l with stales := l.stales + count } remotes
    rw [hre, Option.some_inj] at h
    exact h ▸ ⟨hinv, hbu, hbf⟩

/-- Every call keeps both heaps heaps for their orders, and the floating heap
without a base fee. -/
theorem Inv.apply {l : TxPricedList τ} (hl : l.Inv P) (hf : l.floating.baseFee = none) (op : Op τ)
    {l' : TxPricedList τ} (h : op.apply P l = some l') : l'.Inv P ∧ l'.floating.baseFee = none := by
  cases op with
  | put tx isLocal =>
      obtain ⟨l'', hp, hinv, -, hfl⟩ := hl.put tx isLocal
      rw [Op.apply, hp, Option.some_inj] at h
      exact h ▸ ⟨hinv, hfl ▸ hf⟩
  | removed count remotes =>
      obtain ⟨hinv, -, hbf⟩ := hl.removed count remotes h
      exact ⟨hinv, hbf.trans hf⟩
  | underpriced remote tx =>
      obtain ⟨b, l'', hu, hinv, -, -, hbf, -⟩ := hl.underpriced remote tx
      rw [Op.apply, hu, Option.map_some, Option.some_inj] at h
      exact h ▸ ⟨hinv, hbf.trans hf⟩
  | discard remote slots force =>
      obtain ⟨drop, ok, l'', hd, hinv, -, -, -, -, hbf, -⟩ := hl.discard remote slots force
      rw [Op.apply, hd, Option.map_some, Option.some_inj] at h
      exact h ▸ ⟨hinv, hbf.trans hf⟩
  | reheap remotes =>
      obtain ⟨l'', hre, hinv, -, -, hbf, -⟩ := reheap_spec (P := P) l remotes
      rw [Op.apply, hre, Option.some_inj] at h
      exact h ▸ ⟨hinv, hbf.trans hf⟩
  | setBaseFee baseFee remotes =>
      obtain ⟨l'', hre, hinv, -, -, hbf, -⟩ :=
        reheap_spec (P := P) { l with urgent := { l.urgent with baseFee } } remotes
      rw [Op.apply, TxPricedList.setBaseFee, hre, Option.some_inj] at h
      exact h ▸ ⟨hinv, hbf.trans hf⟩

theorem Reachable.inv {l : TxPricedList τ} (hr : l.Reachable P) : l.Inv P ∧ l.floating.baseFee = none := by
  induction hr with
  | new => exact ⟨⟨isHeap_nil, isHeap_nil⟩, rfl⟩
  | step op _ h ih => exact ih.1.apply ih.2 op h

/-- `Reheap` of five transactions priced 1 to 5 on the new list: the floating
heap gets 1, the urgent heap the rest, both without a base fee. -/
theorem reachable_reheap_one_to_five :
    ∃ l : TxPricedList ℕ, l.Reachable ⟨id, id, id, id⟩ ∧ l.urgent.baseFee = none ∧ l.floating.list = [1] ∧
      l.urgent.list.Perm [2, 3, 4, 5] := by
  obtain ⟨l, hre, -, -, hbu, -, hperm, hlen, hord⟩ :=
    reheap_spec (P := ⟨id, id, id, id⟩) (new : TxPricedList ℕ) [1, 2, 3, 4, 5]
  obtain ⟨f, hf⟩ := List.length_eq_one_iff.mp hlen
  rw [hf, List.singleton_append] at hperm
  -- the floating transaction is at most every urgent one, so it is the cheapest
  have hf1 : f = 1 := by
    have hfmem : f ∈ [1, 2, 3, 4, 5] := hperm.subset List.mem_cons_self
    by_contra hne
    have h1 : (1 : ℕ) ∈ l.urgent.list := by
      have := hperm.symm.subset (List.mem_cons_self (a := 1))
      rcases List.mem_cons.mp this with h | h
      · exact absurd h.symm hne
      · exact h
    have := hord f (by rw [hf]; exact List.mem_singleton_self f) 1 h1
    rw [less_iff] at this
    simp [firstKey, new] at hfmem this
    omega
  subst hf1
  exact ⟨l, .step (.reheap [1, 2, 3, 4, 5]) .new hre, hbu, hf, List.Perm.cons_inv hperm⟩

/-- Along every run the floating heap has no base fee, and the top of each heap
is a cheapest transaction in it by that heap's order. -/
theorem heap_tops_cheapest {l : TxPricedList τ} (hr : l.Reachable P) :
    l.floating.baseFee = none ∧
      (∀ x, l.urgent.list[0]? = some x → ∀ y ∈ l.urgent.list, ¬ Less P l.urgent.baseFee y x) ∧
      ∀ x, l.floating.list[0]? = some x → ∀ y ∈ l.floating.list, ¬ Less P none y x := by
  obtain ⟨hl, hf⟩ := hr.inv
  refine ⟨hf, fun x hx => hl.urgent.not_before_first hx, fun x hx => ?_⟩
  rw [← hf]
  exact hl.floating.not_before_first hx

/-- After that `Reheap` the urgent heap starts at 2, its cheapest transaction. -/
theorem heap_tops_cheapest_reheap :
    ∃ l : TxPricedList ℕ, l.Reachable ⟨id, id, id, id⟩ ∧ l.floating.list = [1] ∧
      l.urgent.list.Perm [2, 3, 4, 5] ∧ l.urgent.list[0]? = some 2 := by
  obtain ⟨l, hr, hbu, hf, hu⟩ := reachable_reheap_one_to_five
  obtain ⟨-, htop, -⟩ := heap_tops_cheapest hr
  obtain ⟨x, hx⟩ : ∃ x, l.urgent.list[0]? = some x := by
    cases hl : l.urgent.list with
    | nil => simp [hl] at hu
    | cons x _ => exact ⟨x, rfl⟩
  -- the top is one of 2 to 5 and no urgent transaction is cheaper, 2 included
  have hxmem : x ∈ [2, 3, 4, 5] := hu.subset (List.mem_of_getElem? hx)
  have h2 := htop x hx 2 (hu.symm.subset List.mem_cons_self)
  rw [less_iff, hbu] at h2
  simp [firstKey] at hxmem h2
  refine ⟨l, hr, hf, hu, ?_⟩
  rw [hx]
  congr 1
  omega

/-- On every list the pool reaches, `Underpriced` says that `tx` is no better
than any live transaction of the heaps, the urgent one compared at its base fee
and the floating one by fee cap, and that there is one. It takes only stale
entries out of the heaps. -/
theorem underpriced_iff_no_cheaper_remote {l : TxPricedList τ} (hr : l.Reachable P) (remote : τ → Bool) (tx : τ) :
    ∃ b l', l.underpriced P remote tx = some (b, l') ∧
      (b = true ↔ (∃ x ∈ l.urgent.list ++ l.floating.list, remote x = true) ∧
        (∀ x ∈ l.urgent.list, remote x = true → cmp P l.urgent.baseFee x tx ≠ .lt) ∧
        ∀ x ∈ l.floating.list, remote x = true → cmp P none x tx ≠ .lt) ∧
      ∃ gone, (gone ++ l'.urgent.list ++ l'.floating.list).Perm (l.urgent.list ++ l.floating.list) ∧
        ∀ x ∈ gone, remote x = false := by
  obtain ⟨hl, hf⟩ := hr.inv
  obtain ⟨b, l', hu, -, hb, -, -, gone, hperm, hgone, -⟩ := hl.underpriced remote tx
  rw [hf] at hb
  exact ⟨b, l', hu, hb, gone, hperm, hgone⟩

/-- After that `Reheap`, with every transaction live: a transaction at price 1
is underpriced, and one at price 3 is not, since 2 is cheaper. -/
theorem underpriced_iff_no_cheaper_remote_reheap :
    ∃ l : TxPricedList ℕ, l.Reachable ⟨id, id, id, id⟩ ∧ l.floating.list = [1] ∧
      l.urgent.list.Perm [2, 3, 4, 5] ∧
      (∃ l', l.underpriced ⟨id, id, id, id⟩ (fun _ => true) 1 = some (true, l')) ∧
      ∃ l', l.underpriced ⟨id, id, id, id⟩ (fun _ => true) 3 = some (false, l') := by
  obtain ⟨l, hr, hbu, hf, hu⟩ := reachable_reheap_one_to_five
  have hcmp : ∀ x y : ℕ, cmp ⟨id, id, id, id⟩ none x y ≠ .lt ↔ y ≤ x := by
    intro x y
    rw [Ne, cmp_eq_lt_iff]
    simp [firstKey]
    omega
  refine ⟨l, hr, hf, hu, ?_, ?_⟩
  · obtain ⟨b, l', hund, hb, -⟩ := underpriced_iff_no_cheaper_remote hr (fun _ => true) 1
    -- every transaction costs at least 1
    have htrue : b = true := by
      rw [hb, hbu]
      refine ⟨⟨1, by simp [hf], rfl⟩, fun x hx _ => ?_, fun x hx _ => ?_⟩
      · have := hu.subset hx
        simp at this
        exact (hcmp x 1).mpr (by omega)
      · rw [hf, List.mem_singleton] at hx
        exact (hcmp x 1).mpr (by omega)
    exact ⟨l', htrue ▸ hund⟩
  · obtain ⟨b, l', hund, hb, -⟩ := underpriced_iff_no_cheaper_remote hr (fun _ => true) 3
    -- 2 is an urgent transaction cheaper than 3
    have hfalse : b = false := by
      cases b
      · rfl
      · obtain ⟨-, hurg, -⟩ := hb.mp rfl
        have := hurg 2 (hu.symm.subset (by simp)) rfl
        rw [hbu, hcmp] at this
        omega
    exact ⟨l', hfalse ▸ hund⟩

/-- On every list the pool reaches, `Discard` never evicts a local or stale
transaction. It hands back transactions only when they free the slots asked
for or it is forced. It fails only when all live transactions together are
short of the slots, and then it hands back nothing. Every live transaction it
does not hand back stays in the heaps. -/
theorem discard_evicts_remotes_for_room {l : TxPricedList τ} (hr : l.Reachable P) (remote : τ → Bool) (slots : ℤ)
    (force : Bool) :
    ∃ drop ok l', l.discard P remote slots force = some ((drop, ok), l') ∧
      (∀ x ∈ drop, remote x = true) ∧
      (ok = true → force = true ∨ slots ≤ (drop.map P.slots).sum) ∧
      (ok = false → drop = [] ∧ force = false ∧
        ((((l.urgent.list ++ l.floating.list).filter remote).map P.slots).sum : ℤ) < slots) ∧
      ∃ gone, (drop ++ gone ++ l'.urgent.list ++ l'.floating.list).Perm (l.urgent.list ++ l.floating.list) ∧
        ∀ x ∈ gone, remote x = false := by
  obtain ⟨drop, ok, l', hd, -, hdrop, hfail, hok, -, -, gone, hperm, hgone, -⟩ := hr.inv.1.discard remote slots force
  exact ⟨drop, ok, l', hd, hdrop, hok, hfail, gone, hperm, hgone⟩

/-- After that `Reheap`, with every transaction live: a `Discard` of 3 slots
succeeds with transactions worth at least 3 slots, and one of 16 slots, more
than the 15 they hold, fails and evicts nothing. -/
theorem discard_evicts_remotes_for_room_reheap :
    ∃ l : TxPricedList ℕ, l.Reachable ⟨id, id, id, id⟩ ∧ l.floating.list = [1] ∧
      l.urgent.list.Perm [2, 3, 4, 5] ∧
      (∃ drop l', l.discard ⟨id, id, id, id⟩ (fun _ => true) 3 false = some ((drop, true), l') ∧
        drop ≠ [] ∧ 3 ≤ drop.sum) ∧
      ∃ l', l.discard ⟨id, id, id, id⟩ (fun _ => true) 16 false = some (([], false), l') := by
  obtain ⟨l, hr, -, hf, hu⟩ := reachable_reheap_one_to_five
  have htotal : (l.urgent.list ++ l.floating.list).sum = 15 := by
    rw [List.sum_append, hu.sum_nat, hf]
    rfl
  have hslots : ∀ L : List ℕ, L.map (PriceFields.slots ⟨id, id, id, id⟩) = L := fun L => List.map_id L
  refine ⟨l, hr, hf, hu, ?_, ?_⟩
  · obtain ⟨drop, ok, l', hd, -, hok, hfail, -⟩ := discard_evicts_remotes_for_room hr (fun _ => true) 3 false
    -- all the transactions hold 15 slots, enough for 3
    have htrue : ok = true := by
      cases ok
      · obtain ⟨-, -, hlt⟩ := hfail rfl
        rw [List.filter_true, hslots, htotal] at hlt
        omega
      · rfl
    subst htrue
    have hsum : 3 ≤ drop.sum := by
      rcases hok rfl with h | h
      · cases h
      · rw [hslots] at h
        exact_mod_cast h
    exact ⟨drop, l', hd, fun h => by simp [h] at hsum, hsum⟩
  · obtain ⟨drop, ok, l', hd, -, hok, hfail, gone, hperm, -⟩ :=
      discard_evicts_remotes_for_room hr (fun _ => true) 16 false
    -- what it hands back is part of the 15 slots held
    have hle : drop.sum ≤ 15 := by
      have := hperm.sum_nat
      rw [htotal, List.sum_append, List.sum_append, List.sum_append] at this
      omega
    have hfalse : ok = false := by
      cases ok
      · rfl
      · rcases hok rfl with h | h
        · cases h
        · rw [hslots] at h
          have : (16 : ℤ) ≤ 15 := h.trans (by exact_mod_cast hle)
          omega
    subst hfalse
    obtain ⟨rfl, -⟩ := hfail rfl
    exact ⟨l', hd⟩

end Runs

end TxPricedList

end GoQuai.TxPool
