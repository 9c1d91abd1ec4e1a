import GoQuai.Lib.Heap

/-! # The heap order on a slice

What `container/heap` keeps of a slice, for an order `r` whose incomparability
is transitive (Mathlib's `Std.Asymm` and `IsOrderConnected`): `up` and `down`
end in a heap from the orders `UpOrder` and `DownOrder` that their callers
establish, `Push`, `Pop`, `Remove`, `Fix` and `Init` keep or make a heap and
permute the elements, and `Pop` returns an element no other is before.
-/

namespace GoQuai.Heap

variable {α : Type} {r : α → α → Prop}

theorem parent_lt {c : ℕ} (hc : 0 < c) : parent c < c := by
  unfold parent
  omega

/-- The entry at `i` is before the one at `j`. -/
def Before (r : α → α → Prop) (L : List α) (i j : ℕ) : Prop := ∃ a ∈ L[i]?, ∃ b ∈ L[j]?, r a b

instance [DecidableRel r] (L : List α) (i j : ℕ) : Decidable (Before r L i j) :=
  inferInstanceAs (Decidable (∃ a ∈ L[i]?, ∃ b ∈ L[j]?, r a b))

/-- The first `m` entries are a heap from the parent `lo` on: no entry whose
parent is at `lo` or after is before its parent. -/
def HeapFrom (r : α → α → Prop) (L : List α) (lo m : ℕ) : Prop :=
  ∀ c, 0 < c → c < m → lo ≤ parent c → ¬ Before r L c (parent c)

/-- A heap: no entry is before its parent. -/
def IsHeap (r : α → α → Prop) (L : List α) : Prop := HeapFrom r L 0 L.length

theorem isHeap_nil : IsHeap r ([] : List α) := fun _ _ hc _ => absurd hc (Nat.not_lt_zero _)

theorem before_iff {L : List α} {i j : ℕ} (hi : i < L.length) (hj : j < L.length) :
    Before r L i j ↔ r L[i] L[j] := by
  simp [Before, List.getElem?_eq_getElem hi, List.getElem?_eq_getElem hj]

theorem not_before_of_le_left {L : List α} {i j : ℕ} (hi : L.length ≤ i) : ¬ Before r L i j := by
  simp [Before, List.getElem?_eq_none hi]

theorem before_swap {L : List α} {i j : ℕ} (hi : i < L.length) (hj : j < L.length) (x y : ℕ) :
    Before r (L.swap i j) x y ↔ Before r L (Equiv.swap i j x) (Equiv.swap i j y) := by
  simp only [Before, getElem?_swap hi hj]

section Asymm

variable [Std.Asymm r] {L : List α}

theorem Before.not_before {i j : ℕ} (h : Before r L i j) : ¬ Before r L j i := by
  obtain ⟨a, ha, b, hb, hab⟩ := h
  rintro ⟨b', hb', a', ha', hba⟩
  rw [Option.mem_def] at ha hb ha' hb'
  rw [ha] at ha'
  rw [hb] at hb'
  cases ha'
  cases hb'
  exact Std.Asymm.asymm _ _ hab hba

theorem not_before_self (i : ℕ) : ¬ Before r L i i := fun h => h.not_before h

end Asymm

section Connected

variable [IsOrderConnected α r] {L : List α}

theorem not_before_trans {i j k : ℕ} (hj : j < L.length) (hij : ¬ Before r L i j)
    (hjk : ¬ Before r L j k) : ¬ Before r L i k := by
  by_cases hi : i < L.length
  · by_cases hk : k < L.length
    · rw [before_iff hi hk]
      rw [before_iff hi hj] at hij
      rw [before_iff hj hk] at hjk
      exact IsOrderConnected.neg_trans hij hjk
    · simp [Before, List.getElem?_eq_none (Nat.le_of_not_lt hk)]
  · exact not_before_of_le_left (Nat.le_of_not_lt hi)

/-- If `i` is before `k`, any entry is after `i` or before `k`. -/
theorem Before.conn {i k : ℕ} (j : ℕ) (hj : j < L.length) (h : Before r L i k) :
    Before r L i j ∨ Before r L j k := by
  by_cases hij : Before r L i j
  · exact Or.inl hij
  · by_cases hjk : Before r L j k
    · exact Or.inr hjk
    · exact absurd h (not_before_trans hj hij hjk)

end Connected

/-! ## The slice's answers -/

section Slice

variable [DecidableRel r] {L : List α}

theorem less_listInterface {i j : ℕ} (hi : i < L.length) (hj : j < L.length) :
    (listInterface r).less L i j = some (decide (r L[i] L[j])) := by
  simp [listInterface, List.getElem?_eq_getElem hi, List.getElem?_eq_getElem hj]

theorem lt_of_less_listInterface {i j : ℕ} {b : Bool} (h : (listInterface r).less L i j = some b) :
    i < L.length ∧ j < L.length := by
  simp only [listInterface] at h
  split at h
  · rename_i a c ha hc
    exact ⟨(List.getElem?_eq_some_iff.mp ha).1, (List.getElem?_eq_some_iff.mp hc).1⟩
  · cases h

theorem swap_listInterface {i j : ℕ} (hi : i < L.length) (hj : j < L.length) :
    (listInterface r).swap L i j = some (L.swap i j) := by
  simp [listInterface, hi, hj]

theorem perm_of_swap_listInterface {L' : List α} {i j : ℕ} (h : (listInterface r).swap L i j = some L') :
    L'.Perm L := by
  simp only [listInterface] at h
  split_ifs at h
  cases h
  exact List.swap_perm _ _ _

/-- The loop of `down` only exchanges entries, in any order. -/
theorem perm_of_downLoop {L L' : List α} {i n k : ℕ} (h : downLoop (listInterface r) L i n = some (L', k)) :
    L'.Perm L := by
  unfold downLoop at h
  by_cases hn : n ≤ 2 * i + 1
  · simp only [hn, if_true, Option.some.injEq, Prod.mk.injEq] at h
    rw [h.1]
  · simp only [hn, if_false] at h
    split at h
    · cases h
    · split at h
      · cases h
      · cases h
        rfl
      · obtain ⟨L₁, hs, hd⟩ := Option.bind_eq_some_iff.mp h
        exact (perm_of_downLoop hd).trans (perm_of_swap_listInterface hs)
termination_by n - i
decreasing_by all_goals split <;> omega

theorem perm_of_pop_listInterface {L L' : List α} {x : α} (h : (listInterface r).pop L = some (x, L')) :
    (x :: L').Perm L := by
  simp only [listInterface, Option.map_eq_some_iff, Prod.mk.injEq] at h
  obtain ⟨y, hy, rfl, rfl⟩ := h
  calc List.Perm (y :: L.dropLast) (L.dropLast ++ [y]) := (List.perm_append_singleton y _).symm
    _ = L := List.dropLast_append_getLast? _ hy

/-- `Pop` on a slice returns one of its entries and the others, in any order. -/
theorem perm_of_pop {L L' : List α} {x : α} (h : pop (listInterface r) L = some (x, L')) : (x :: L').Perm L := by
  unfold pop at h
  split_ifs at h
  obtain ⟨L₁, hs, h⟩ := Option.bind_eq_some_iff.mp h
  obtain ⟨⟨L₂, moved⟩, hd, hp⟩ := Option.bind_eq_some_iff.mp h
  obtain ⟨⟨L₃, k⟩, hdl, heq⟩ := Option.map_eq_some_iff.mp hd
  simp only [Prod.mk.injEq] at heq
  obtain ⟨rfl, -⟩ := heq
  exact (perm_of_pop_listInterface hp).trans ((perm_of_downLoop hdl).trans (perm_of_swap_listInterface hs))

/-- `up` only exchanges entries. -/
theorem perm_of_up {L L' : List α} {j : ℕ} (h : up (listInterface r) L j = some L') : L'.Perm L := by
  unfold up at h
  split_ifs at h with hj
  · cases h
    rfl
  · split at h
    · cases h
    · cases h
      rfl
    · obtain ⟨L₁, hs, hu⟩ := Option.bind_eq_some_iff.mp h
      exact (perm_of_up hu).trans (perm_of_swap_listInterface hs)
termination_by j
decreasing_by unfold parent; omega

/-- `Push` on a slice appends the entry, then only exchanges entries. -/
theorem perm_of_push {L L' : List α} {x : α} (h : push (listInterface r) x L = some L') : L'.Perm (L ++ [x]) := by
  unfold push at h
  obtain ⟨L₁, hp, hu⟩ := Option.bind_eq_some_iff.mp h
  simp only [listInterface, Option.some.injEq] at hp
  subst hp
  exact perm_of_up hu

end Slice

/-! ## up -/

/-- What `up` needs at `j`: every pair off `j` is in order, and the children of
`j` are not before the parent of `j`. -/
structure UpOrder (r : α → α → Prop) (L : List α) (j m : ℕ) : Prop where
  except : ∀ c, 0 < c → c < m → c ≠ j → ¬ Before r L c (parent c)
  grand : j ≠ 0 → ∀ c, 0 < c → c < m → parent c = j → ¬ Before r L c (parent j)

theorem UpOrder.finish {j m : ℕ} {L : List α} (o : UpOrder r L j m) (hstop : j ≠ 0 → ¬ Before r L j (parent j)) :
    HeapFrom r L 0 m := by
  intro c hc0 hcm _
  by_cases hcj : c = j
  · subst hcj
    exact hstop (by omega)
  · exact o.except c hc0 hcm hcj

section Sift

variable [Std.Asymm r] [IsOrderConnected α r] {L : List α}

theorem UpOrder.move {j m : ℕ} (o : UpOrder r L j m) (hj : j ≠ 0) (hjm : j < m) (hm : m ≤ L.length)
    (hb : Before r L j (parent j)) : UpOrder r (L.swap (parent j) j) (parent j) m := by
  have hp : parent j < j := parent_lt (Nat.pos_of_ne_zero hj)
  have hpl : parent j < L.length := by omega
  have hjl : j < L.length := by omega
  constructor
  · intro c hc0 hcm hcp
    rw [before_swap hpl hjl]
    by_cases hcj : c = j
    · subst hcj
      rw [Equiv.swap_apply_right, Equiv.swap_apply_left]
      exact hb.not_before
    · rw [Equiv.swap_apply_of_ne_of_ne hcp hcj]
      by_cases hpc : parent c = j
      · rw [hpc, Equiv.swap_apply_right]
        exact o.grand hj c hc0 hcm hpc
      · by_cases hpp : parent c = parent j
        · -- a sibling of `j` is not before the parent, which `j` is before
          rw [hpp, Equiv.swap_apply_left]
          have hsib := o.except c hc0 hcm hcj
          rw [hpp] at hsib
          rcases hb.conn c (by omega) with h | h
          · exact h.not_before
          · exact absurd h hsib
        · rw [Equiv.swap_apply_of_ne_of_ne hpp hpc]
          exact o.except c hc0 hcm hcj
  · intro hp0 c hc0 hcm hpc
    have hpp : parent (parent j) < parent j := parent_lt (Nat.pos_of_ne_zero hp0)
    have hup := o.except (parent j) (by omega) (by omega) (by omega)
    have hgp : Equiv.swap (parent j) j (parent (parent j)) = parent (parent j) :=
      Equiv.swap_apply_of_ne_of_ne (by omega) (by omega)
    rw [before_swap hpl hjl, hgp]
    by_cases hcj : c = j
    · subst hcj
      rw [Equiv.swap_apply_right]
      exact hup
    · have hcp : c ≠ parent j := by
        have := parent_lt hc0
        omega
      rw [Equiv.swap_apply_of_ne_of_ne hcp hcj]
      have hc := o.except c hc0 hcm hcj
      rw [hpc] at hc
      exact not_before_trans hpl hc hup

variable [DecidableRel r]

/-- `up` ends in a heap of the first `m` entries, permutes the slice and
leaves the entries from `m` on. -/
theorem up_spec (j : ℕ) {m : ℕ} (o : UpOrder r L j m) (hjm : j < m) (hm : m ≤ L.length) :
    ∃ L', up (listInterface r) L j = some L' ∧ L'.Perm L ∧ HeapFrom r L' 0 m ∧
      ∀ c, m ≤ c → L'[c]? = L[c]? := by
  induction j using Nat.strongRecOn generalizing L with
  | ind j ih =>
      unfold up
      by_cases hj : j = 0
      · rw [if_pos hj]
        exact ⟨L, rfl, List.Perm.refl L, o.finish (fun h => absurd hj h), fun _ _ => rfl⟩
      · have hp := parent_lt (Nat.pos_of_ne_zero hj)
        have hjl : j < L.length := by omega
        have hpl : parent j < L.length := by omega
        rw [if_neg hj, less_listInterface hjl hpl]
        by_cases hb : r L[j] L[parent j]
        · rw [decide_eq_true hb]
          simp only [swap_listInterface hpl hjl, Option.bind_some]
          obtain ⟨L', hu, hperm, hheap, hframe⟩ :=
            ih (parent j) hp (o.move hj hjm hm ((before_iff hjl hpl).mpr hb)) (by omega) (by simpa using hm)
          refine ⟨L', hu, hperm.trans (List.swap_perm _ _ _), hheap, fun c hc => ?_⟩
          rw [hframe c hc, getElem?_swap hpl hjl, Equiv.swap_apply_of_ne_of_ne (by omega) (by omega)]
        · rw [decide_eq_false hb]
          exact ⟨L, rfl, List.Perm.refl L, o.finish (fun _ => (before_iff hjl hpl).not.mpr hb),
            fun _ _ => rfl⟩

end Sift

/-! ## down -/

/-- What `down` needs at `i`: every pair from the parent `lo` on that does not
touch `i` is in order, and the children of `i` are not before the parent of
`i` when that pair is from `lo` on. -/
structure DownOrder (r : α → α → Prop) (L : List α) (i lo m : ℕ) : Prop where
  except : ∀ c, 0 < c → c < m → lo ≤ parent c → c ≠ i → parent c ≠ i → ¬ Before r L c (parent c)
  grand : i ≠ 0 → lo ≤ parent i → ∀ c, 0 < c → c < m → parent c = i → ¬ Before r L c (parent i)

/-- The child of `i` that `down` compares with `i`: the right one when it is
below `n` and before the left one. -/
def lesserChild (r : α → α → Prop) [DecidableRel r] (L : List α) (i n : ℕ) : ℕ :=
  if 2 * i + 2 < n ∧ Before r L (2 * i + 2) (2 * i + 1) then 2 * i + 2 else 2 * i + 1

section Down

variable [DecidableRel r] {L : List α} {i n : ℕ}

theorem lesserChild_bounds (hn : 2 * i + 1 < n) :
    parent (lesserChild r L i n) = i ∧ i < lesserChild r L i n ∧ lesserChild r L i n < n := by
  unfold lesserChild parent
  split_ifs <;> omega

/-- One round of the loop of `down` on a slice. -/
theorem downLoop_listInterface (hn : 2 * i + 1 < n) (hnL : n ≤ L.length) :
    downLoop (listInterface r) L i n =
      if Before r L (lesserChild r L i n) i then
        downLoop (listInterface r) (L.swap i (lesserChild r L i n)) (lesserChild r L i n) n
      else some (L, i) := by
  have hjn := (lesserChild_bounds (r := r) (L := L) hn).2.2
  have hjL : lesserChild r L i n < L.length := by omega
  have hiL : i < L.length := by omega
  rw [downLoop, if_neg (by omega)]
  -- the comparison of the children decides which is `lesserChild`
  have hright : (if 2 * i + 2 < n then (listInterface r).less L (2 * i + 2) (2 * i + 1) else some false) =
      some (decide (2 * i + 2 < n ∧ Before r L (2 * i + 2) (2 * i + 1))) := by
    by_cases h2 : 2 * i + 2 < n
    · rw [if_pos h2, less_listInterface (by omega) (by omega)]
      simp [h2, before_iff (show 2 * i + 2 < L.length by omega) (show 2 * i + 1 < L.length by omega)]
    · simp [h2]
  simp only [hright]
  have hj : (if decide (2 * i + 2 < n ∧ Before r L (2 * i + 2) (2 * i + 1)) = true then 2 * i + 2
      else 2 * i + 1) = lesserChild r L i n := by
    simp [lesserChild]
  simp only [hj, less_listInterface hjL hiL, ← before_iff hjL hiL]
  by_cases hb : Before r L (lesserChild r L i n) i
  · simp [hb, swap_listInterface hiL hjL]
  · simp [hb]

/-- On any slice of at least `n` entries, ordered or not, the loop of `down`
ends and leaves the entries from `n` on where they are. -/
theorem downLoop_frame {L : List α} {i n : ℕ} (hnL : n ≤ L.length) :
    ∃ L' k, downLoop (listInterface r) L i n = some (L', k) ∧ L'.length = L.length ∧
      ∀ c, n ≤ c → L'[c]? = L[c]? := by
  by_cases hn : 2 * i + 1 < n
  · obtain ⟨-, hij, hjn⟩ := lesserChild_bounds (r := r) (L := L) hn
    rw [downLoop_listInterface hn hnL]
    split_ifs
    · obtain ⟨L', k, hd, hlen, hframe⟩ :=
        downLoop_frame (L := L.swap i (lesserChild r L i n)) (i := lesserChild r L i n) (n := n)
          (by rw [List.length_swap]; exact hnL)
      refine ⟨L', k, hd, by rw [hlen, List.length_swap], fun c hc => ?_⟩
      rw [hframe c hc, getElem?_swap (by omega) (by omega),
        Equiv.swap_apply_of_ne_of_ne (by omega) (by omega)]
    · exact ⟨L, i, rfl, rfl, fun _ _ => rfl⟩
  · refine ⟨L, i, ?_, rfl, fun _ _ => rfl⟩
    rw [downLoop, if_pos (by omega)]
termination_by n - i

variable [Std.Asymm r]

/-- No child of `i` is before `lesserChild`. -/
theorem not_before_lesserChild {c : ℕ} (hc : 0 < c) (hcn : c < n) (hpc : parent c = i) :
    ¬ Before r L c (lesserChild r L i n) := by
  have hc' : c = 2 * i + 1 ∨ c = 2 * i + 2 := by
    unfold parent at hpc
    omega
  unfold lesserChild
  split_ifs with h
  · rcases hc' with rfl | rfl
    · exact h.2.not_before
    · exact not_before_self _
  · rcases hc' with rfl | rfl
    · exact not_before_self _
    · exact fun hb => h ⟨hcn, hb⟩

theorem DownOrder.move {lo : ℕ} (o : DownOrder r L i lo n) (hn : 2 * i + 1 < n) (hnL : n ≤ L.length)
    (hlo : lo ≤ i) :
    DownOrder r (L.swap i (lesserChild r L i n)) (lesserChild r L i n) lo n := by
  obtain ⟨hpj, hij, hjn⟩ := lesserChild_bounds (r := r) (L := L) hn
  have hmin : ∀ c, 0 < c → c < n → parent c = i → ¬ Before r L c (lesserChild r L i n) :=
    fun c hc hcn hpc => not_before_lesserChild hc hcn hpc
  generalize lesserChild r L i n = j at hpj hij hjn hmin ⊢
  have hiL : i < L.length := by omega
  have hjL : j < L.length := by omega
  constructor
  · intro c hc0 hcn hloc hcj hpcj
    rw [before_swap hiL hjL]
    by_cases hci : c = i
    · -- the child that moved up is not before the parent of `i`
      have hpi : parent c < c := parent_lt hc0
      rw [hci] at hpi hloc ⊢
      rw [Equiv.swap_apply_left, Equiv.swap_apply_of_ne_of_ne (by omega) (by omega)]
      exact o.grand (by omega) hloc j (by omega) hjn hpj
    · rw [Equiv.swap_apply_of_ne_of_ne hci hcj]
      by_cases hpc : parent c = i
      · rw [hpc, Equiv.swap_apply_left]
        exact hmin c hc0 hcn hpc
      · rw [Equiv.swap_apply_of_ne_of_ne hpc hpcj]
        exact o.except c hc0 hcn hloc hci hpc
  · intro _ _ c hc0 hcn hpc
    have hjc : j < c := hpc ▸ parent_lt hc0
    rw [before_swap hiL hjL, hpj, Equiv.swap_apply_left, Equiv.swap_apply_of_ne_of_ne (by omega) (by omega)]
    have hc := o.except c hc0 hcn (by omega) (by omega) (by omega)
    rwa [hpc] at hc

variable [IsOrderConnected α r] {lo : ℕ}

/-- Where `down` stops, every pair from `lo` on but the one above `i` is in order. -/
theorem DownOrder.stop (o : DownOrder r L i lo n) (hnL : n ≤ L.length)
    (hstop : n ≤ 2 * i + 1 ∨ ¬ Before r L (lesserChild r L i n) i) :
    ∀ c, 0 < c → c < n → lo ≤ parent c → c ≠ i → ¬ Before r L c (parent c) := by
  intro c hc0 hcn hloc hci
  by_cases hpc : parent c = i
  · have hc' : 2 * i + 1 < n := by
      unfold parent at hpc
      omega
    rw [hpc]
    rcases hstop with h | h
    · omega
    · exact not_before_trans (by have := (lesserChild_bounds (r := r) (L := L) hc').2.2; omega)
        (not_before_lesserChild hc0 hcn hpc) h
  · exact o.except c hc0 hcn hloc hci hpc

/-- The loop of `down` ends at a position `k` below which, from `lo` on, every
pair but the one above `k` is in order; that one is in order too when the
element moved, and nothing changed when it did not. -/
theorem downLoop_spec {L : List α} {i : ℕ} (o : DownOrder r L i lo n) (hnL : n ≤ L.length) (hlo : lo ≤ i) :
    ∃ L' k, downLoop (listInterface r) L i n = some (L', k) ∧ L'.Perm L ∧
      (∀ c, n ≤ c → L'[c]? = L[c]?) ∧ i ≤ k ∧
      (∀ c, 0 < c → c < n → lo ≤ parent c → c ≠ k → ¬ Before r L' c (parent c)) ∧
      (k = i → L' = L) ∧ (k ≠ i → ¬ Before r L' k (parent k)) := by
  by_cases hn : 2 * i + 1 < n
  · obtain ⟨hpj, hij, hjn⟩ := lesserChild_bounds (r := r) (L := L) hn
    rw [downLoop_listInterface hn hnL]
    by_cases hb : Before r L (lesserChild r L i n) i
    · rw [if_pos hb]
      obtain ⟨L', k, hd, hperm, hframe, hjk, hord, hstay, hmoved⟩ :=
        downLoop_spec (o.move hn hnL hlo) (by simpa using hnL) (by omega)
      refine ⟨L', k, hd, hperm.trans (List.swap_perm _ _ _), fun c hc => ?_, by omega, hord,
        fun hk => absurd hk (by omega), fun _ => ?_⟩
      · rw [hframe c hc, getElem?_swap (by omega) (by omega),
          Equiv.swap_apply_of_ne_of_ne (by omega) (by omega)]
      · by_cases hkj : k = lesserChild r L i n
        · -- the element stopped where it was swapped to, below the child that moved up
          rw [hstay hkj, hkj, hpj, before_swap (by omega) (by omega), Equiv.swap_apply_right,
            Equiv.swap_apply_left]
          exact hb.not_before
        · exact hmoved hkj
    · rw [if_neg hb]
      exact ⟨L, i, rfl, List.Perm.refl L, fun _ _ => rfl, Nat.le_refl i, o.stop hnL (Or.inr hb), fun _ => rfl,
        fun h => absurd rfl h⟩
  · rw [downLoop, if_pos (by omega)]
    exact ⟨L, i, rfl, List.Perm.refl L, fun _ _ => rfl, Nat.le_refl i, o.stop hnL (Or.inl (by omega)),
      fun _ => rfl, fun h => absurd rfl h⟩
termination_by n - i
decreasing_by omega

/-- `down` from a `DownOrder`: a heap from `lo` on when the element moved, and
the slice unchanged, with the children of `i` in order, when it did not. -/
theorem down_spec (o : DownOrder r L i lo n) (hnL : n ≤ L.length) (hlo : lo ≤ i) :
    ∃ L' moved, down (listInterface r) L i n = some (L', moved) ∧ L'.Perm L ∧
      (∀ c, n ≤ c → L'[c]? = L[c]?) ∧ (moved = true → HeapFrom r L' lo n) ∧
      (moved = false → L' = L ∧ ∀ c, 0 < c → c < n → lo ≤ parent c → c ≠ i → ¬ Before r L c (parent c)) := by
  obtain ⟨L', k, hd, hperm, hframe, hik, hord, hstay, hmoved⟩ := downLoop_spec o hnL hlo
  refine ⟨L', decide (i < k), by simp [down, hd], hperm, hframe, fun hm => ?_, fun hm => ?_⟩
  · intro c hc0 hcn hloc
    by_cases hck : c = k
    · rw [hck]
      exact hmoved (by simp at hm; omega)
    · exact hord c hc0 hcn hloc hck
  · have hki : k = i := by
      simp at hm
      omega
    rw [← hstay hki]
    refine ⟨rfl, fun c hc0 hcn hloc hci => ?_⟩
    exact hord c hc0 hcn hloc (hki ▸ hci)

end Down

/-! ## The heap functions -/

theorem HeapFrom.congr {L₁ L₂ : List α} {lo m : ℕ} (h : ∀ k, k < m → L₁[k]? = L₂[k]?)
    (hh : HeapFrom r L₁ lo m) : HeapFrom r L₂ lo m := by
  intro c hc0 hcm hloc
  have hp := parent_lt hc0
  unfold Before
  rw [← h c hcm, ← h (parent c) (by omega)]
  exact hh c hc0 hcm hloc

theorem heapFrom_dropLast {L : List α} (hh : HeapFrom r L 0 (L.length - 1)) : IsHeap r L.dropLast := by
  have hsame : ∀ k, k < L.length - 1 → L[k]? = L.dropLast[k]? := fun k hk => by
    simp [hk]
  rw [IsHeap, List.length_dropLast]
  exact hh.congr hsame

section Ops

variable {L : List α}

/-- No entry of a heap is before the root. -/
theorem IsHeap.root_first [Std.Asymm r] [IsOrderConnected α r] (hh : IsHeap r L) (i : ℕ) (hi : i < L.length) : ¬ Before r L i 0 := by
  induction i using Nat.strongRecOn with
  | ind i ih =>
      by_cases hi0 : i = 0
      · rw [hi0]
        exact not_before_self 0
      · have hp := parent_lt (Nat.pos_of_ne_zero hi0)
        exact not_before_trans (by omega) (hh i (by omega) hi (Nat.zero_le _)) (ih (parent i) hp (by omega))

/-- No entry of a heap is before its first. -/
theorem IsHeap.not_before_first [Std.Asymm r] [IsOrderConnected α r] (hh : IsHeap r L) {x : α}
    (hx : L[0]? = some x) : ∀ y ∈ L, ¬ r y x := by
  intro y hy
  obtain ⟨h0, hx0⟩ := List.getElem?_eq_some_iff.mp hx
  obtain ⟨i, hi, rfl⟩ := List.getElem_of_mem hy
  have hroot := hh.root_first i hi
  rwa [before_iff hi h0, hx0] at hroot

theorem pop_listInterface [DecidableRel r] {L₁ : List α} {x : α} (hlast : L₁[L₁.length - 1]? = some x) :
    (listInterface r).pop L₁ = some (x, L₁.dropLast) ∧ (x :: L₁.dropLast).Perm L₁ := by
  have hget : L₁.getLast? = some x := by rw [List.getLast?_eq_getElem?, hlast]
  refine ⟨by simp [listInterface, hget], ?_⟩
  have hne : L₁ ≠ [] := by
    rintro rfl
    simp at hlast
  have hlx : L₁.getLast hne = x :=
    Option.some_inj.mp ((List.getLast?_eq_some_getLast hne).symm.trans hget)
  calc List.Perm (x :: L₁.dropLast) (L₁.dropLast ++ [x]) := (List.perm_append_singleton x _).symm
    _ = L₁ := by rw [← hlx, List.dropLast_append_getLast]

/-- `Pop` of any slice, a heap or not, returns its first entry. -/
theorem pop_first [DecidableRel r] {x : α} (hx : L[0]? = some x) :
    ∃ L', pop (listInterface r) L = some (x, L') ∧ (x :: L').Perm L := by
  obtain ⟨hlen, -⟩ := List.getElem?_eq_some_iff.mp hx
  have hnL : L.length - 1 < L.length := by omega
  -- the first entry is swapped to the end, where the loop of `down` does not reach
  obtain ⟨L₁, k, hd, hL₁, hframe⟩ := downLoop_frame (r := r) (L := L.swap 0 (L.length - 1)) (i := 0)
    (n := L.length - 1) (by rw [List.length_swap]; omega)
  have hlast : L₁[L₁.length - 1]? = some x := by
    rw [hL₁, List.length_swap, hframe _ (Nat.le_refl _), getElem?_swap hlen hnL, Equiv.swap_apply_right, hx]
  obtain ⟨hpop, hperm⟩ := pop_listInterface (r := r) hlast
  refine ⟨L₁.dropLast, ?_, hperm.trans ((perm_of_downLoop hd).trans (List.swap_perm _ _ _))⟩
  unfold pop down
  rw [listInterface_len, if_neg (by omega), swap_listInterface hlen hnL, Option.bind_some, hd]
  exact hpop

/-- The last entry swapped into `i`: the order `down` needs at `i` on the
entries before the last. -/
theorem IsHeap.downOrder_swap [IsOrderConnected α r] (hh : IsHeap r L) {i : ℕ} (hi : i < L.length) :
    DownOrder r (L.swap i (L.length - 1)) i 0 (L.length - 1) := by
  have hnL : L.length - 1 < L.length := by omega
  constructor
  · intro c hc0 hcn _ hci hpc
    have hp := parent_lt hc0
    have hc' : Equiv.swap i (L.length - 1) c = c := Equiv.swap_apply_of_ne_of_ne hci (by omega)
    have hpc' : Equiv.swap i (L.length - 1) (parent c) = parent c :=
      Equiv.swap_apply_of_ne_of_ne hpc (by omega)
    rw [before_swap hi hnL, hc', hpc']
    exact hh c hc0 (by omega) (Nat.zero_le _)
  · intro hi0 _ c hc0 hcn hpc
    have hp := parent_lt hc0
    have hpi := parent_lt (Nat.pos_of_ne_zero hi0)
    have hc' : Equiv.swap i (L.length - 1) c = c := Equiv.swap_apply_of_ne_of_ne (by omega) (by omega)
    have hpi' : Equiv.swap i (L.length - 1) (parent i) = parent i :=
      Equiv.swap_apply_of_ne_of_ne (by omega) (by omega)
    rw [before_swap hi hnL, hc', hpi']
    have hci := hh c hc0 (by omega) (Nat.zero_le _)
    rw [hpc] at hci
    exact not_before_trans hi hci (hh i (by omega) hi (Nat.zero_le _))

/-- A heap with the entry at `i` replaced is in the order `down` needs at `i`. -/
theorem IsHeap.downOrder_set [IsOrderConnected α r] (hh : IsHeap r L) {i : ℕ} (hi : i < L.length) (x : α) :
    DownOrder r (L.set i x) i 0 L.length := by
  have hsame : ∀ k, k ≠ i → (L.set i x)[k]? = L[k]? := fun k hk => List.getElem?_set_ne (Ne.symm hk)
  constructor
  · intro c hc0 hcn _ hci hpc
    unfold Before
    rw [hsame c hci, hsame _ hpc]
    exact hh c hc0 hcn (Nat.zero_le _)
  · intro hi0 _ c hc0 hcn hpc
    have hp := parent_lt hc0
    have hpi := parent_lt (Nat.pos_of_ne_zero hi0)
    unfold Before
    rw [hsame c (by omega), hsame _ (by omega)]
    have hci := hh c hc0 hcn (Nat.zero_le _)
    rw [hpc] at hci
    exact not_before_trans hi hci (hh i (by omega) hi (Nat.zero_le _))

variable [DecidableRel r] [Std.Asymm r] [IsOrderConnected α r]

/-- `down` then, when nothing moved, `up`: the end of `Remove` and `Fix`. -/
theorem downUp_spec {i n : ℕ} (o : DownOrder r L i 0 n) (hin : i < n) (hnL : n ≤ L.length) :
    ∃ L', ((down (listInterface r) L i n).bind fun (s, moved) =>
        if moved then some s else up (listInterface r) s i) = some L' ∧
      L'.Perm L ∧ HeapFrom r L' 0 n ∧ ∀ c, n ≤ c → L'[c]? = L[c]? := by
  obtain ⟨L₁, moved, hd, hperm, hframe, hmoved, hstay⟩ := down_spec o hnL (Nat.zero_le i)
  rw [hd, Option.bind_some]
  cases moved with
  | true => exact ⟨L₁, rfl, hperm, hmoved rfl, hframe⟩
  | false =>
      obtain ⟨rfl, hord⟩ := hstay rfl
      have u : UpOrder r L₁ i n :=
        ⟨fun c hc0 hcn hci => hord c hc0 hcn (Nat.zero_le _) hci,
          fun hi0 c hc0 hcn hpc => o.grand hi0 (Nat.zero_le _) c hc0 hcn hpc⟩
      obtain ⟨L', hu, hperm', hheap, hframe'⟩ := up_spec i u hin hnL
      exact ⟨L', hu, hperm', hheap, hframe'⟩

/-- `Push` keeps a heap. -/
theorem push_spec (hh : IsHeap r L) (x : α) :
    ∃ L', push (listInterface r) x L = some L' ∧ L'.Perm (L ++ [x]) ∧ IsHeap r L' := by
  have hsame : ∀ k, k < L.length → (L ++ [x])[k]? = L[k]? := fun k hk => List.getElem?_append_left hk
  have u : UpOrder r (L ++ [x]) L.length (L.length + 1) := by
    constructor
    · intro c hc0 hcn hcl
      exact HeapFrom.congr (fun k hk => (hsame k hk).symm) hh c hc0 (by omega) (Nat.zero_le _)
    · intro _ c hc0 hcn hpc
      unfold parent at hpc
      omega
  obtain ⟨L', hu, hperm, hheap, -⟩ := up_spec L.length u (by omega) (by simp)
  refine ⟨L', by simpa [push, listInterface] using hu, hperm, ?_⟩
  rw [IsHeap, hperm.length_eq]
  simpa using hheap

/-- `Pop` returns the root, which no entry is before, and keeps a heap. -/
theorem pop_spec (hh : IsHeap r L) (hne : L ≠ []) :
    ∃ x L', pop (listInterface r) L = some (x, L') ∧ L[0]? = some x ∧ (∀ y ∈ L, ¬ r y x) ∧
      (x :: L').Perm L ∧ IsHeap r L' := by
  have hlen : 0 < L.length := List.length_pos_iff.mpr hne
  have hnL : L.length - 1 < L.length := by omega
  obtain ⟨L₁, moved, hd, hperm, hframe, hmoved, hstay⟩ :=
    down_spec (hh.downOrder_swap hlen) (by simp) (Nat.le_refl 0)
  have hheap : HeapFrom r L₁ 0 (L.length - 1) := by
    cases moved with
    | true => exact hmoved rfl
    | false =>
        obtain ⟨rfl, hord⟩ := hstay rfl
        exact fun c hc0 hcn hloc => hord c hc0 hcn hloc (by omega)
  have hL₁ : L₁.length = L.length := by rw [hperm.length_eq, List.length_swap]
  obtain ⟨x, hx⟩ : ∃ x, L[0]? = some x := ⟨_, List.getElem?_eq_getElem hlen⟩
  -- the root was swapped to the end, where `down` does not reach
  have hlast : L₁[L₁.length - 1]? = some x := by
    rw [hL₁, hframe _ (Nat.le_refl _), getElem?_swap hlen hnL, Equiv.swap_apply_right, hx]
  obtain ⟨hpop, hperm'⟩ := pop_listInterface (r := r) hlast
  refine ⟨x, L₁.dropLast, ?_, hx, hh.not_before_first hx, hperm'.trans (hperm.trans (List.swap_perm _ _ _)),
    heapFrom_dropLast (by rwa [hL₁])⟩
  unfold pop
  rw [listInterface_len, if_neg (by omega), swap_listInterface hlen hnL, Option.bind_some, hd,
    Option.bind_some]
  exact hpop

/-- `Remove` returns the entry at `i` and keeps a heap. -/
theorem remove_spec (hh : IsHeap r L) {i : ℕ} (hi : i < L.length) :
    ∃ L', remove (listInterface r) L i = some (L[i], L') ∧ (L[i] :: L').Perm L ∧ IsHeap r L' := by
  have hnL : L.length - 1 < L.length := by omega
  -- before the final `Pop`, the entry at `i` is last and the rest is a heap
  obtain ⟨L₁, hm, hperm, hheap, hlast⟩ : ∃ L₁,
      (if L.length - 1 ≠ i then
        ((listInterface r).swap L i (L.length - 1)).bind fun s' =>
          (down (listInterface r) s' i (L.length - 1)).bind fun (s'', moved) =>
            if moved then some s'' else up (listInterface r) s'' i
      else some L) = some L₁ ∧ L₁.Perm L ∧ HeapFrom r L₁ 0 (L.length - 1) ∧
        L₁[L₁.length - 1]? = some L[i] := by
    by_cases hni : L.length - 1 = i
    · rw [if_neg (not_not.mpr hni)]
      refine ⟨L, rfl, List.Perm.refl L, fun c hc0 hcn _ => hh c hc0 (by omega) (Nat.zero_le _), ?_⟩
      rw [hni, List.getElem?_eq_getElem hi]
    · rw [if_pos hni, swap_listInterface hi hnL, Option.bind_some]
      obtain ⟨L₁, hu, hperm, hheap, hframe⟩ := downUp_spec (hh.downOrder_swap hi) (by omega) (by simp)
      have hL₁ : L₁.length = L.length := by rw [hperm.length_eq, List.length_swap]
      refine ⟨L₁, hu, hperm.trans (List.swap_perm _ _ _), hheap, ?_⟩
      rw [hL₁, hframe _ (Nat.le_refl _), getElem?_swap hi hnL, Equiv.swap_apply_right,
        List.getElem?_eq_getElem hi]
  have hL₁ : L₁.length = L.length := hperm.length_eq
  obtain ⟨hpop, hperm'⟩ := pop_listInterface (r := r) hlast
  refine ⟨L₁.dropLast, ?_, hperm'.trans hperm, heapFrom_dropLast (by rwa [hL₁])⟩
  unfold remove
  rw [listInterface_len, if_neg (by omega)]
  rw [hm, Option.bind_some]
  exact hpop

/-- `Fix` after the entry at `i` changed makes a heap again. -/
theorem fix_spec {i : ℕ} (o : DownOrder r L i 0 L.length) (hi : i < L.length) :
    ∃ L', fix (listInterface r) L i = some L' ∧ L'.Perm L ∧ IsHeap r L' := by
  obtain ⟨L', hu, hperm, hheap, -⟩ := downUp_spec o hi (Nat.le_refl _)
  refine ⟨L', by rw [fix, listInterface_len]; exact hu, hperm, ?_⟩
  rw [IsHeap, hperm.length_eq]
  exact hheap

theorem initLoop_spec {n : ℕ} : ∀ (k : ℕ) {L : List α}, n ≤ L.length → HeapFrom r L k n →
    ∃ L', initLoop (listInterface r) n L k = some L' ∧ L'.Perm L ∧ HeapFrom r L' 0 n
  | 0, L, _, hh => ⟨L, rfl, List.Perm.refl L, hh⟩
  | k + 1, L, hnL, hh => by
      -- the pairs below `k` are in order; `down` at `k` adds those whose parent is `k`
      have o : DownOrder r L k k n :=
        ⟨fun c hc0 hcn hloc _ hpc => hh c hc0 hcn (by omega),
          fun hk0 hlo => absurd hlo (by have := parent_lt (Nat.pos_of_ne_zero hk0); omega)⟩
      obtain ⟨L₁, moved, hd, hperm, -, hmoved, hstay⟩ := down_spec o hnL (Nat.le_refl k)
      have hh₁ : HeapFrom r L₁ k n := by
        cases moved with
        | true => exact hmoved rfl
        | false =>
            obtain ⟨rfl, hord⟩ := hstay rfl
            intro c hc0 hcn hloc
            have hp := parent_lt hc0
            exact hord c hc0 hcn hloc (by omega)
      obtain ⟨L', hi, hperm', hh'⟩ := initLoop_spec k (by rw [hperm.length_eq]; exact hnL) hh₁
      exact ⟨L', by simp [initLoop, hd, hi], hperm'.trans hperm, hh'⟩

/-- `Init` makes a heap of any slice. -/
theorem init_spec (L : List α) : ∃ L', init (listInterface r) L = some L' ∧ L'.Perm L ∧ IsHeap r L' := by
  obtain ⟨L', hi, hperm, hh⟩ := initLoop_spec (r := r) (L.length / 2) (Nat.le_refl L.length)
    (fun c hc0 hcn hloc => by unfold parent at hloc; omega)
  refine ⟨L', hi, hperm, ?_⟩
  rw [IsHeap, hperm.length_eq]
  exact hh

end Ops

end GoQuai.Heap
