import Mathlib.Order.RelClasses
import Mathlib.Logic.Equiv.Basic
import Mathlib.Data.List.Perm.Basic

/-! # Go's container/heap

The functions of Go's `container/heap` over any `heap.Interface`: `up`,
`down`, `Init`, `Push`, `Pop`, `Remove` and `Fix`. The interface's `Less` and
`Swap` panic on an index out of range and `Pop` on an empty collection, so its
operations return `Option`. Go's indices are `int`; here they are natural
numbers, and the two places where Go reaches `-1` (`Len() - 1` of an empty
heap, the parent of the root) are written out.

A slice is the reference implementation (`listInterface`). Any implementation
whose state simulates a list (`Simulates`) runs `up`, `down`, `Push`, `Pop` and
`Remove` as the slice does (`Simulates.up` … `Simulates.remove`), so the order
proofs are made once, for lists.
-/

namespace GoQuai.Heap

/-- Go's `heap.Interface` over states `σ` holding elements `α`. -/
structure Interface (σ α : Type) where
  len : σ → ℕ
  less : σ → ℕ → ℕ → Option Bool
  swap : σ → ℕ → ℕ → Option σ
  push : α → σ → Option σ
  pop : σ → Option (α × σ)

variable {σ α : Type}

/-- The parent position, `(j - 1) / 2`. -/
def parent (j : ℕ) : ℕ := (j - 1) / 2

/-- `heap.up`: swap the element at `j` with its parent while it is less. -/
def up (h : Interface σ α) (s : σ) (j : ℕ) : Option σ :=
  -- the parent of the root is `(0 - 1) / 2 = 0` in Go, which stops the loop
  if j = 0 then some s
  else
    match h.less s j (parent j) with
    | none => none
    | some false => some s
    | some true => (h.swap s (parent j) j).bind fun s => up h s (parent j)
termination_by j
decreasing_by unfold parent; omega

/-- The loop of `heap.down`: swap the element at `i` with its lesser child
below `n` while that child is less; returns the last position. -/
def downLoop (h : Interface σ α) (s : σ) (i n : ℕ) : Option (σ × ℕ) :=
  if n ≤ 2 * i + 1 then some (s, i)
  else
    let right : Option Bool := if 2 * i + 2 < n then h.less s (2 * i + 2) (2 * i + 1) else some false
    match right with
    | none => none
    | some right =>
        let j := if right then 2 * i + 2 else 2 * i + 1
        match h.less s j i with
        | none => none
        | some false => some (s, i)
        | some true => (h.swap s i j).bind fun s => downLoop h s j n
termination_by n - i
decreasing_by all_goals split <;> omega

/-- `heap.down`: whether the element moved. -/
def down (h : Interface σ α) (s : σ) (i0 n : ℕ) : Option (σ × Bool) :=
  (downLoop h s i0 n).map fun (s, i) => (s, decide (i0 < i))

/-- The loop of `heap.Init`, which runs `down` at `k - 1`, …, `0`. -/
def initLoop (h : Interface σ α) (n : ℕ) (s : σ) : ℕ → Option σ
  | 0 => some s
  | k + 1 => (down h s k n).bind fun (s, _) => initLoop h n s k

/-- `heap.Init`. -/
def init (h : Interface σ α) (s : σ) : Option σ := initLoop h (h.len s) s (h.len s / 2)

/-- `heap.Push`. -/
def push (h : Interface σ α) (x : α) (s : σ) : Option σ :=
  (h.push x s).bind fun s => up h s (h.len s - 1)

/-- `heap.Pop`; on an empty heap Go calls `Swap(0, -1)`, which is out of range. -/
def pop (h : Interface σ α) (s : σ) : Option (α × σ) :=
  if h.len s = 0 then none
  else
    (h.swap s 0 (h.len s - 1)).bind fun s' =>
      (down h s' 0 (h.len s - 1)).bind fun (s'', _) => h.pop s''

/-- `heap.Remove`; on an empty heap Go calls `Swap(i, -1)`, which is out of range. -/
def remove (h : Interface σ α) (s : σ) (i : ℕ) : Option (α × σ) :=
  if h.len s = 0 then none
  else
    (if h.len s - 1 ≠ i then
        (h.swap s i (h.len s - 1)).bind fun s' =>
          (down h s' i (h.len s - 1)).bind fun (s'', down) => if down then some s'' else up h s'' i
      else some s).bind h.pop

/-- `heap.Fix`. -/
def fix (h : Interface σ α) (s : σ) (i : ℕ) : Option σ :=
  (down h s i (h.len s)).bind fun (s, down) => if down then some s else up h s i

/-! ## Slices -/

/-- A slice as a `heap.Interface` for the order `r`. -/
def listInterface (r : α → α → Prop) [DecidableRel r] : Interface (List α) α where
  len := List.length
  less L i j :=
    match L[i]?, L[j]? with
    | some a, some b => some (decide (r a b))
    | _, _ => none
  swap L i j := if i < L.length ∧ j < L.length then some (L.swap i j) else none
  push x L := some (L ++ [x])
  pop L := L.getLast?.map fun x => (x, L.dropLast)

@[simp] theorem listInterface_len (r : α → α → Prop) [DecidableRel r] (L : List α) :
    (listInterface r).len L = L.length := rfl

theorem getElem?_swap {L : List α} {i j : ℕ} (hi : i < L.length) (hj : j < L.length) (k : ℕ) :
    (L.swap i j)[k]? = L[Equiv.swap i j k]? := by
  rw [List.swap_eq_of_lt hi hj]
  by_cases hkj : k = j
  · subst hkj
    simp [hj]
  · by_cases hki : k = i
    · subst hki
      simp [Ne.symm hkj, hi]
    · simp [Ne.symm hkj, Ne.symm hki, Equiv.swap_apply_of_ne_of_ne hki hkj]

/-! ## Implementations that simulate a slice -/

/-- The states of `h` related by `R` to lists answer every call of the heap
functions as the slice does. Each field starts from a call the slice answers. -/
structure Simulates (h : Interface σ α) (r : α → α → Prop) [DecidableRel r] (R : σ → List α → Prop) :
    Prop where
  len : R s L → h.len s = L.length
  less : R s L → (listInterface r).less L i j = some b → h.less s i j = some b
  swap : R s L → (listInterface r).swap L i j = some L' → ∃ s', h.swap s i j = some s' ∧ R s' L'
  append : R s L → ∃ s', h.push x s = some s' ∧ R s' (L ++ [x])
  dropLast : R s L → (listInterface r).pop L = some (x, L') → ∃ s', h.pop s = some (x, s') ∧ R s' L'

section Simulation

variable {h : Interface σ α} {r : α → α → Prop} [DecidableRel r] {R : σ → List α → Prop}

theorem Simulates.up (sim : Simulates h r R) (j : ℕ) {s : σ} {L L' : List α} (hR : R s L)
    (hu : Heap.up (listInterface r) L j = some L') : ∃ s', Heap.up h s j = some s' ∧ R s' L' := by
  induction j using Nat.strongRecOn generalizing s L with
  | ind j ih =>
      unfold Heap.up at hu ⊢
      by_cases hj : j = 0
      · simp only [hj, if_true, Option.some.injEq] at hu ⊢
        exact ⟨s, rfl, hu ▸ hR⟩
      · simp only [hj, if_false] at hu ⊢
        cases hl : (listInterface r).less L j (parent j) with
        | none => simp [hl] at hu
        | some b =>
            rw [sim.less hR hl]
            rw [hl] at hu
            cases b with
            | false =>
                cases hu
                exact ⟨s, rfl, hR⟩
            | true =>
                obtain ⟨L₁, hs, hu⟩ := Option.bind_eq_some_iff.mp hu
                obtain ⟨s₁, hs₁, hR₁⟩ := sim.swap hR hs
                obtain ⟨s', hu', hR'⟩ := ih _ (by unfold parent; omega) hR₁ hu
                exact ⟨s', by simp [hs₁, hu'], hR'⟩

theorem Simulates.downLoop (sim : Simulates h r R) {s : σ} {L : List α} {i n : ℕ} {res : List α × ℕ}
    (hR : R s L) (hd : Heap.downLoop (listInterface r) L i n = some res) :
    ∃ s', Heap.downLoop h s i n = some (s', res.2) ∧ R s' res.1 := by
  unfold Heap.downLoop at hd ⊢
  by_cases hn : n ≤ 2 * i + 1
  · simp only [hn, if_true, Option.some.injEq] at hd ⊢
    subst hd
    exact ⟨s, rfl, hR⟩
  · simp only [hn, if_false] at hd ⊢
    -- the comparison of the two children, then of the lesser child with `i`
    have hright : ∀ b, (if 2 * i + 2 < n then (listInterface r).less L (2 * i + 2) (2 * i + 1)
        else some false) = some b →
        (if 2 * i + 2 < n then h.less s (2 * i + 2) (2 * i + 1) else some false) = some b := by
      intro b hb
      split_ifs at hb ⊢
      · exact sim.less hR hb
      · exact hb
    split at hd
    · cases hd
    · rename_i right hrl
      rw [hright right hrl]
      simp only at hd ⊢
      split at hd
      · cases hd
      · rename_i hl
        rw [sim.less hR hl]
        cases hd
        exact ⟨s, rfl, hR⟩
      · rename_i hl
        rw [sim.less hR hl]
        obtain ⟨L₁, hs, hd⟩ := Option.bind_eq_some_iff.mp hd
        obtain ⟨s₁, hs₁, hR₁⟩ := sim.swap hR hs
        obtain ⟨s', hd', hR'⟩ := sim.downLoop hR₁ hd
        exact ⟨s', by simp [hs₁, hd'], hR'⟩
termination_by n - i
decreasing_by all_goals split <;> omega

theorem Simulates.down (sim : Simulates h r R) {s : σ} {L : List α} {i n : ℕ} {res : List α × Bool}
    (hR : R s L) (hd : Heap.down (listInterface r) L i n = some res) :
    ∃ s', Heap.down h s i n = some (s', res.2) ∧ R s' res.1 := by
  obtain ⟨res', hd', rfl⟩ := Option.map_eq_some_iff.mp hd
  obtain ⟨s', hd'', hR'⟩ := sim.downLoop hR hd'
  exact ⟨s', by simp [Heap.down, hd''], hR'⟩

theorem Simulates.heapPush (sim : Simulates h r R) {s : σ} {L L' : List α} {x : α} (hR : R s L)
    (hp : Heap.push (listInterface r) x L = some L') : ∃ s', Heap.push h x s = some s' ∧ R s' L' := by
  obtain ⟨s₁, hs₁, hR₁⟩ := sim.append hR (x := x)
  unfold Heap.push at hp ⊢
  rw [hs₁, Option.bind_some, sim.len hR₁]
  exact sim.up _ hR₁ hp

theorem Simulates.heapPop (sim : Simulates h r R) {s : σ} {L L' : List α} {x : α} (hR : R s L)
    (hp : Heap.pop (listInterface r) L = some (x, L')) : ∃ s', Heap.pop h s = some (x, s') ∧ R s' L' := by
  unfold Heap.pop at hp ⊢
  rw [sim.len hR]
  rw [listInterface_len] at hp
  split_ifs at hp ⊢ with h0
  obtain ⟨L₁, hs, hp⟩ := Option.bind_eq_some_iff.mp hp
  obtain ⟨⟨L₂, moved⟩, hd, hp⟩ := Option.bind_eq_some_iff.mp hp
  obtain ⟨s₁, hs₁, hR₁⟩ := sim.swap hR hs
  obtain ⟨s₂, hd', hR₂⟩ := sim.down hR₁ hd
  obtain ⟨s', hp', hR'⟩ := sim.dropLast hR₂ hp
  exact ⟨s', by simp [hs₁, hd', hp'], hR'⟩

/-- The branch of `Remove` and `Fix` after `down`: `up` when nothing moved. -/
theorem Simulates.upUnlessMoved (sim : Simulates h r R) {s : σ} {L L' : List α} {i : ℕ} (moved : Bool)
    (hR : R s L) (hu : (if moved then some L else Heap.up (listInterface r) L i) = some L') :
    ∃ s', (if moved then some s else Heap.up h s i) = some s' ∧ R s' L' := by
  cases moved with
  | true =>
      cases hu
      exact ⟨s, rfl, hR⟩
  | false => exact sim.up i hR hu

theorem Simulates.remove (sim : Simulates h r R) {s : σ} {L L' : List α} {i : ℕ} {x : α} (hR : R s L)
    (hp : Heap.remove (listInterface r) L i = some (x, L')) : ∃ s', Heap.remove h s i = some (x, s') ∧ R s' L' := by
  unfold Heap.remove at hp ⊢
  rw [sim.len hR]
  rw [listInterface_len] at hp
  split_ifs at hp ⊢ with h0 hi
  · obtain ⟨L₁, hm, hp⟩ := Option.bind_eq_some_iff.mp hp
    obtain ⟨L₂, hs, hm⟩ := Option.bind_eq_some_iff.mp hm
    obtain ⟨⟨L₃, moved⟩, hd, hm⟩ := Option.bind_eq_some_iff.mp hm
    obtain ⟨s₂, hs₂, hR₂⟩ := sim.swap hR hs
    obtain ⟨s₃, hd', hR₃⟩ := sim.down hR₂ hd
    obtain ⟨s₁, hm', hR₁⟩ := sim.upUnlessMoved moved hR₃ hm
    obtain ⟨s', hp', hR'⟩ := sim.dropLast hR₁ hp
    exact ⟨s', by simp [hs₂, hd', hm', hp'], hR'⟩
  · obtain ⟨s', hp', hR'⟩ := sim.dropLast hR hp
    exact ⟨s', by simp [hp'], hR'⟩

end Simulation

end GoQuai.Heap
