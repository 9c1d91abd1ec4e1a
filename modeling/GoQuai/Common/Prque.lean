import GoQuai.Lib.HeapOrder

/-! # The priority queue of common/prque

`Prque` runs Go's `container/heap` on an `sstack`, a growable array kept as
blocks of `blockSize` slots that are never freed. Position `i` is the slot
`blocks[i / blockSize][i % blockSize]`; `active` is the block the next `Push`
writes to and `offset` the slot in it, and for the same `size` the offset is
`0` or `blockSize` depending on the direction of the last move.

`Sstack.Holds` says the slots at positions `0 … size - 1` hold a list and that
`active` and `offset` point at position `size`. `Push`, `Pop` and `Swap` keep
it for appending, dropping the last element and exchanging
(`Holds.push`, `Holds.pop`, `Holds.swap`), so the heap functions run on the
sstack as on that list (`simulates`), and a queue made by `New` holds a heap.
The `setIndex` callback, which only reports positions to the caller, is left out.
-/

namespace GoQuai.Common

open GoQuai.Heap

/-- `blockSize`. -/
def blockSize : ℕ := 4096

/-- `item`. -/
structure Item (α : Type) where
  value : α
  priority : Int64

/-- `sstack`; the slice `active` is the block it shares with `blocks`, named
by its index. -/
structure Sstack (α : Type) where
  size : ℕ
  capacity : ℕ
  offset : ℕ
  wrapAround : Bool
  blocks : List (List (Option (Item α)))
  active : ℕ

namespace Sstack

variable {α β : Type}

/-- The slot `blocks[b][o]`; `none` is an index out of range. -/
def getSlot (blocks : List (List (Option (Item α)))) (b o : ℕ) : Option (Option (Item α)) :=
  blocks[b]?.bind (·[o]?)

/-- `blocks[b][o] = v`, which panics out of range. -/
def setSlot (blocks : List (List (Option (Item α)))) (b o : ℕ) (v : Option (Item α)) :
    Option (List (List (Option (Item α)))) :=
  blocks[b]?.bind fun blk => if o < blk.length then some (blocks.set b (blk.set o v)) else none

/-- `newSstack`. -/
def new (wrapAround : Bool) : Sstack α :=
  ⟨0, blockSize, 0, wrapAround, [List.replicate blockSize none], 0⟩

/-- The move of `Push` to the slot it writes: a new block when the stack is
full, the next block when the active one is used up. -/
def nextSlot (s : Sstack α) : Option (Sstack α) :=
  if s.size = s.capacity then
    some { s with blocks := s.blocks ++ [List.replicate blockSize none], active := s.blocks.length,
                  capacity := s.capacity + blockSize, offset := 0 }
  else if s.offset = blockSize then
    if s.size / blockSize < s.blocks.length then some { s with active := s.size / blockSize, offset := 0 }
    else none
  else some s

/-- `sstack.Push`. -/
def push (data : Item α) (s : Sstack α) : Option (Sstack α) :=
  s.nextSlot.bind fun s =>
    (setSlot s.blocks s.active s.offset (some data)).map fun blocks =>
      { s with blocks, offset := s.offset + 1, size := s.size + 1 }

/-- The move of `Pop` to the last slot: back one, into the previous block
when the offset is at its start. -/
def prevSlot (s : Sstack α) : Option (Sstack α) :=
  if s.offset = 0 then
    if (s.size - 1) / blockSize < s.blocks.length then
      some { s with size := s.size - 1, offset := blockSize - 1, active := (s.size - 1) / blockSize }
    else none
  else some { s with size := s.size - 1, offset := s.offset - 1 }

/-- `sstack.Pop`. With `size = 0` Go goes on to `size = -1`; `heap.Pop` never
gets there, as its `Swap(0, -1)` panics first. -/
def pop (s : Sstack α) : Option (Option (Item α) × Sstack α) :=
  if s.size = 0 then none
  else
    s.prevSlot.bind fun s =>
      (getSlot s.blocks s.active s.offset).bind fun res =>
        (setSlot s.blocks s.active s.offset none).map fun blocks => (res, { s with blocks })

/-- `sstack.Less`: higher priority first, or by the wrapped difference. -/
def less (s : Sstack α) (i j : ℕ) : Option Bool := do
  let a ← getSlot s.blocks (i / blockSize) (i % blockSize)
  let b ← getSlot s.blocks (j / blockSize) (j % blockSize)
  match a, b with
  | some a, some b => pure (if s.wrapAround then a.priority - b.priority > 0 else a.priority > b.priority)
  | _, _ => none

/-- `sstack.Swap`. -/
def swap (s : Sstack α) (i j : ℕ) : Option (Sstack α) := do
  let a ← getSlot s.blocks (j / blockSize) (j % blockSize)
  let b ← getSlot s.blocks (i / blockSize) (i % blockSize)
  let blocks ← setSlot s.blocks (i / blockSize) (i % blockSize) a
  let blocks ← setSlot blocks (j / blockSize) (j % blockSize) b
  pure { s with blocks }

/-- The sstack as the `heap.Interface` `Prque` hands to `container/heap`; a
nil item popped is the panic of the caller's `.(*item)`. -/
def heapInterface : Interface (Sstack α) (Item α) where
  len := size
  less := less
  swap := swap
  push := push
  pop s := s.pop.bind fun (res, s) => res.map (·, s)

/-- The items at positions `0 … size - 1`. -/
def toList (s : Sstack α) : List (Item α) :=
  (List.range s.size).filterMap fun i => (getSlot s.blocks (i / blockSize) (i % blockSize)).join

/-! ## Slots -/

section Slots

variable {blocks blocks' : List (List (Option (Item α)))}

theorem getSlot_setSlot {b o : ℕ} {v : Option (Item α)} (h : setSlot blocks b o v = some blocks')
    (b' o' : ℕ) : getSlot blocks' b' o' = if b' = b ∧ o' = o then some v else getSlot blocks b' o' := by
  unfold setSlot at h
  cases hb : blocks[b]? with
  | none => simp [hb] at h
  | some blk =>
      rw [hb, Option.bind_some] at h
      split_ifs at h with ho
      cases h
      obtain ⟨hbl, hblk⟩ := List.getElem?_eq_some_iff.mp hb
      unfold getSlot
      by_cases hbb : b' = b
      · subst hbb
        by_cases hoo : o' = o
        · subst hoo
          simp [hbl, ho]
        · simp [hbl, hoo, hblk, List.getElem?_set_ne (Ne.symm hoo)]
      · simp [hbb, List.getElem?_set_ne (Ne.symm hbb)]

theorem length_of_setSlot {b o : ℕ} {v : Option (Item α)} (h : setSlot blocks b o v = some blocks') :
    blocks'.length = blocks.length := by
  unfold setSlot at h
  cases hb : blocks[b]? with
  | none => simp [hb] at h
  | some blk =>
      rw [hb, Option.bind_some] at h
      split_ifs at h
      cases h
      exact List.length_set

theorem blocks_of_setSlot {b o : ℕ} {v : Option (Item α)} (h : setSlot blocks b o v = some blocks')
    (hlen : ∀ blk ∈ blocks, blk.length = blockSize) : ∀ blk ∈ blocks', blk.length = blockSize := by
  unfold setSlot at h
  cases hb : blocks[b]? with
  | none => simp [hb] at h
  | some blk =>
      rw [hb, Option.bind_some] at h
      split_ifs at h
      cases h
      intro blk' hmem
      rcases List.mem_or_eq_of_mem_set hmem with hmem | rfl
      · exact hlen blk' hmem
      · rw [List.length_set]
        exact hlen blk (List.mem_of_getElem? hb)

theorem exists_setSlot {b o : ℕ} (hb : b < blocks.length) (hlen : ∀ blk ∈ blocks, blk.length = blockSize)
    (ho : o < blockSize) (v : Option (Item α)) : ∃ blocks', setSlot blocks b o v = some blocks' := by
  have hblk := hlen _ (List.getElem_mem hb)
  exact ⟨blocks.set b (blocks[b].set o v), by simp [setSlot, List.getElem?_eq_getElem hb, hblk, ho]⟩

theorem filterMap_getElem?_range (L : List β) : (List.range L.length).filterMap (L[·]?) = L := by
  induction L with
  | nil => rfl
  | cons x L ih =>
    rw [List.length_cons, List.range_succ_eq_map, List.filterMap_cons, List.filterMap_map]
    simpa [Function.comp_def] using ih

/-- Two positions with the same block and slot are equal. -/
theorem eq_of_slot {i j : ℕ} (hb : i / blockSize = j / blockSize) (ho : i % blockSize = j % blockSize) :
    i = j := by
  unfold blockSize at hb ho
  omega

end Slots

/-! ## The list an sstack holds -/

/-- The slots at positions `0 … size - 1` hold `L`, every block has
`blockSize` slots, and `active` and `offset` point at position `size`. -/
structure Holds (s : Sstack α) (L : List (Item α)) : Prop where
  size : s.size = L.length
  capacity : s.capacity = s.blocks.length * blockSize
  blocks : ∀ blk ∈ s.blocks, blk.length = blockSize
  fits : s.size ≤ s.capacity
  next : s.size = s.active * blockSize + s.offset
  offset : s.offset ≤ blockSize
  active : s.active < s.blocks.length
  slots : ∀ i x, L[i]? = some x → getSlot s.blocks (i / blockSize) (i % blockSize) = some (some x)

theorem holds_new (wrapAround : Bool) : (new wrapAround : Sstack α).Holds [] where
  size := rfl
  capacity := by
    show blockSize = [List.replicate blockSize none].length * blockSize
    rw [List.length_singleton, Nat.one_mul]
  blocks := by
    intro blk hmem
    rw [List.mem_singleton.mp hmem, List.length_replicate]
  fits := Nat.zero_le _
  next := by
    show 0 = 0 * blockSize + 0
    rw [Nat.zero_mul]
  offset := Nat.zero_le _
  active := by
    show 0 < [List.replicate blockSize none].length
    rw [List.length_singleton]
    exact Nat.zero_lt_one
  slots := by simp

/-- `s₁` is `s` with `active` and `offset` at position `size`, room there,
and the slots below it unchanged. -/
structure AtNext (s s₁ : Sstack α) : Prop where
  size : s₁.size = s.size
  wrapAround : s₁.wrapAround = s.wrapAround
  active : s₁.active = s.size / blockSize
  offset : s₁.offset = s.size % blockSize
  capacity : s₁.capacity = s₁.blocks.length * blockSize
  blocks : ∀ blk ∈ s₁.blocks, blk.length = blockSize
  room : s.size < s₁.capacity
  slots : ∀ i, i < s.size →
    getSlot s₁.blocks (i / blockSize) (i % blockSize) = getSlot s.blocks (i / blockSize) (i % blockSize)

variable {s : Sstack α} {L : List (Item α)}

theorem Holds.nextSlot (h : s.Holds L) : ∃ s₁, s.nextSlot = some s₁ ∧ AtNext s s₁ := by
  have hB : 0 < blockSize := by decide
  unfold Sstack.nextSlot
  by_cases hfull : s.size = s.capacity
  · -- a new block, appended at index `blocks.length`
    rw [if_pos hfull]
    refine ⟨_, rfl, ⟨rfl, rfl, ?_, ?_, ?_, ?_, ?_, ?_⟩⟩
    · have := h.capacity
      have := h.next
      have := h.offset
      simp only
      rw [hfull, h.capacity, Nat.mul_div_cancel _ hB]
    · simp only
      rw [hfull, h.capacity, Nat.mul_mod_left]
    · simp [h.capacity, Nat.add_mul]
    · intro blk hmem
      rcases List.mem_append.mp hmem with hmem | hmem
      · exact h.blocks blk hmem
      · simp at hmem
        simp [hmem]
    · simp only
      omega
    · intro i hi
      have hib : i / blockSize < s.blocks.length := by
        have := h.fits
        rw [h.capacity] at this
        exact Nat.div_lt_of_lt_mul (by rw [Nat.mul_comm]; omega)
      simp [getSlot, List.getElem?_append_left hib]
  · rw [if_neg hfull]
    by_cases hend : s.offset = blockSize
    · -- the active block is used up; the next one already exists
      have hroom : s.size < s.capacity := Nat.lt_of_le_of_ne h.fits hfull
      have hlt : s.size / blockSize < s.blocks.length :=
        Nat.div_lt_of_lt_mul (by rw [Nat.mul_comm, ← h.capacity]; exact hroom)
      rw [if_pos hend, if_pos hlt]
      refine ⟨_, rfl, ⟨rfl, rfl, rfl, ?_, h.capacity, h.blocks, ?_, fun _ _ => rfl⟩⟩
      · have := h.next
        simp only
        rw [h.next, hend]
        unfold blockSize
        omega
      · simp only
        have := h.fits
        omega
    · rw [if_neg hend]
      have hn := h.next
      have ho := h.offset
      refine ⟨s, rfl, ⟨rfl, rfl, ?_, ?_, h.capacity, h.blocks, by have := h.fits; omega, fun _ _ => rfl⟩⟩
      · rw [hn]
        unfold blockSize at *
        omega
      · rw [hn]
        unfold blockSize at *
        omega

theorem Holds.push (h : s.Holds L) (x : Item α) :
    ∃ s', s.push x = some s' ∧ s'.Holds (L ++ [x]) ∧ s'.wrapAround = s.wrapAround := by
  obtain ⟨s₁, hs₁, n⟩ := h.nextSlot
  have hact : s₁.active < s₁.blocks.length := by
    have := n.room
    rw [n.capacity, n.active] at *
    exact Nat.div_lt_of_lt_mul (by rw [Nat.mul_comm]; omega)
  have hoff : s₁.offset < blockSize := by
    rw [n.offset]
    exact Nat.mod_lt _ (by decide)
  obtain ⟨blocks, hset⟩ := exists_setSlot hact n.blocks hoff (some x)
  refine ⟨{ s₁ with blocks, offset := s₁.offset + 1, size := s₁.size + 1 },
    by simp [Sstack.push, hs₁, hset], ⟨?_, ?_, ?_, ?_, ?_, ?_, ?_, ?_⟩, n.wrapAround⟩
  · simp [n.size, h.size]
  · simp [n.capacity, length_of_setSlot hset]
  · exact blocks_of_setSlot hset n.blocks
  · have := n.room
    simp only
    rw [n.size]
    omega
  · simp only
    rw [n.size, n.active, n.offset]
    have := Nat.div_add_mod s.size blockSize
    rw [Nat.mul_comm]
    omega
  · simp only
    rw [n.offset]
    have := Nat.mod_lt s.size (show 0 < blockSize by decide)
    omega
  · simp only
    rw [length_of_setSlot hset]
    exact hact
  · intro i y hy
    simp only
    rw [getSlot_setSlot hset, n.active, n.offset]
    by_cases hi : i = s.size
    · -- the write at position `size` is the pushed item
      rw [if_pos ⟨congrArg (· / blockSize) hi, congrArg (· % blockSize) hi⟩]
      rw [hi, h.size, List.getElem?_append_right (Nat.le_refl _)] at hy
      simpa using hy
    · rw [if_neg (fun hs => hi (eq_of_slot hs.1 hs.2))]
      have hil : i < L.length := by
        have hlt := (List.getElem?_eq_some_iff.mp hy).1
        have hsz := h.size
        simp at hlt
        omega
      rw [List.getElem?_append_left hil] at hy
      rw [n.slots i (by rw [h.size]; exact hil)]
      exact h.slots i y hy

/-- `s₁` is `s` with `active` and `offset` at its last position. -/
structure AtLast (s s₁ : Sstack α) : Prop where
  size : s₁.size = s.size - 1
  wrapAround : s₁.wrapAround = s.wrapAround
  active : s₁.active = (s.size - 1) / blockSize
  offset : s₁.offset = (s.size - 1) % blockSize
  blocks : s₁.blocks = s.blocks
  capacity : s₁.capacity = s.capacity

theorem Holds.prevSlot (h : s.Holds L) (hne : s.size ≠ 0) : ∃ s₁, s.prevSlot = some s₁ ∧ AtLast s s₁ := by
  have hn := h.next
  have ho := h.offset
  unfold Sstack.prevSlot
  by_cases hzero : s.offset = 0
  · -- the offset is at the start of the active block: back into the previous one
    have hlt : (s.size - 1) / blockSize < s.blocks.length := by
      have := h.fits
      rw [h.capacity] at this
      exact Nat.div_lt_of_lt_mul (by rw [Nat.mul_comm]; omega)
    rw [if_pos hzero, if_pos hlt]
    refine ⟨_, rfl, ⟨rfl, rfl, rfl, ?_, rfl, rfl⟩⟩
    simp only
    rw [hn, hzero]
    unfold blockSize at *
    omega
  · rw [if_neg hzero]
    refine ⟨_, rfl, ⟨rfl, rfl, ?_, ?_, rfl, rfl⟩⟩
    · simp only
      rw [hn]
      unfold blockSize at *
      omega
    · simp only
      rw [hn]
      unfold blockSize at *
      omega

theorem Holds.pop (h : s.Holds L) (hne : L ≠ []) :
    ∃ s', s.pop = some (L.getLast?, s') ∧ s'.Holds L.dropLast ∧ s'.wrapAround = s.wrapAround := by
  have hlen : 0 < L.length := List.length_pos_iff.mpr hne
  have hsz : s.size ≠ 0 := by rw [h.size]; omega
  obtain ⟨s₁, hs₁, a⟩ := h.prevSlot hsz
  have hlast : L[s.size - 1]? = L.getLast? := by rw [List.getLast?_eq_getElem?, h.size]
  have hact : s₁.active < s₁.blocks.length := by
    have := h.fits
    rw [a.active, a.blocks]
    rw [h.capacity] at this
    exact Nat.div_lt_of_lt_mul (by rw [Nat.mul_comm]; omega)
  have hoff : s₁.offset < blockSize := by
    rw [a.offset]
    exact Nat.mod_lt _ (by decide)
  have hblocks : ∀ blk ∈ s₁.blocks, blk.length = blockSize := by
    rw [a.blocks]
    exact h.blocks
  obtain ⟨blocks, hset⟩ := exists_setSlot hact hblocks hoff none
  -- the slot read is the last position, which holds the last element
  have hread : getSlot s₁.blocks s₁.active s₁.offset = some L.getLast? := by
    obtain ⟨x, hx⟩ : ∃ x, L.getLast? = some x := ⟨_, List.getLast?_eq_some_getLast hne⟩
    rw [a.blocks, a.active, a.offset, hx]
    exact h.slots _ x (hlast.trans hx)
  refine ⟨{ s₁ with blocks }, by simp [Sstack.pop, hsz, hs₁, hread, hset], ⟨?_, ?_, ?_, ?_, ?_, ?_, ?_, ?_⟩,
    a.wrapAround⟩
  · simp [a.size, h.size]
  · simp [length_of_setSlot hset, a.capacity, a.blocks, h.capacity]
  · exact blocks_of_setSlot hset hblocks
  · have := h.fits
    simp only [a.size, a.capacity]
    omega
  · simp only
    rw [a.size, a.active, a.offset, Nat.mul_comm]
    exact (Nat.div_add_mod _ _).symm
  · simp only
    rw [a.offset]
    exact Nat.le_of_lt (Nat.mod_lt _ (by decide))
  · simp only
    rw [length_of_setSlot hset]
    exact hact
  · intro i y hy
    simp only
    have hsz' := h.size
    have hil : i < L.length - 1 := by
      have := (List.getElem?_eq_some_iff.mp hy).1
      simpa using this
    rw [List.getElem?_dropLast, if_pos hil] at hy
    rw [getSlot_setSlot hset, a.active, a.offset, if_neg (fun hs => by have := eq_of_slot hs.1 hs.2; omega),
      a.blocks]
    exact h.slots i y hy

theorem Holds.swap (h : s.Holds L) {i j : ℕ} (hi : i < L.length) (hj : j < L.length) :
    ∃ s', s.swap i j = some s' ∧ s'.Holds (L.swap i j) ∧ s'.wrapAround = s.wrapAround := by
  have hslot : ∀ k (hk : k < L.length), getSlot s.blocks (k / blockSize) (k % blockSize) = some (some L[k]) :=
    fun k hk => h.slots k _ (List.getElem?_eq_getElem hk)
  have hblock : ∀ k, k < L.length → k / blockSize < s.blocks.length := by
    intro k hk
    have := h.fits
    rw [h.capacity, h.size] at this
    exact Nat.div_lt_of_lt_mul (by rw [Nat.mul_comm]; omega)
  have hmod : ∀ k, k % blockSize < blockSize := fun k => Nat.mod_lt _ (by decide)
  obtain ⟨blocks₁, hset₁⟩ := exists_setSlot (hblock i hi) h.blocks (hmod i) (some L[j])
  obtain ⟨blocks₂, hset₂⟩ := exists_setSlot (by rw [length_of_setSlot hset₁]; exact hblock j hj)
    (blocks_of_setSlot hset₁ h.blocks) (hmod j) (some L[i])
  refine ⟨{ s with blocks := blocks₂ }, by simp [Sstack.swap, hslot i hi, hslot j hj, hset₁, hset₂],
    ⟨by simp [h.size], ?_, blocks_of_setSlot hset₂ (blocks_of_setSlot hset₁ h.blocks), h.fits, h.next,
      h.offset, ?_, ?_⟩, rfl⟩
  · simp [length_of_setSlot hset₂, length_of_setSlot hset₁, h.capacity]
  · simp only
    rw [length_of_setSlot hset₂, length_of_setSlot hset₁]
    exact h.active
  · intro k y hy
    simp only
    have hk : k < L.length := by simpa using (List.getElem?_eq_some_iff.mp hy).1
    rw [getElem?_swap hi hj] at hy
    rw [getSlot_setSlot hset₂, getSlot_setSlot hset₁]
    by_cases hkj : k = j
    · subst hkj
      rw [if_pos ⟨rfl, rfl⟩]
      rw [Equiv.swap_apply_right, List.getElem?_eq_getElem hi] at hy
      rw [Option.some_inj.mp hy]
    · rw [if_neg (fun hs => hkj (eq_of_slot hs.1 hs.2))]
      by_cases hki : k = i
      · subst hki
        rw [if_pos ⟨rfl, rfl⟩]
        rw [Equiv.swap_apply_left, List.getElem?_eq_getElem hj] at hy
        rw [Option.some_inj.mp hy]
      · rw [if_neg (fun hs => hki (eq_of_slot hs.1 hs.2))]
        rw [Equiv.swap_apply_of_ne_of_ne hki hkj] at hy
        exact h.slots k y hy

theorem Holds.toList (h : s.Holds L) : s.toList = L := by
  have hslot : ∀ i ∈ List.range s.size, (getSlot s.blocks (i / blockSize) (i % blockSize)).join = L[i]? := by
    intro i hi
    rw [List.mem_range, h.size] at hi
    rw [h.slots i _ (List.getElem?_eq_getElem hi), List.getElem?_eq_getElem hi, Option.join_some]
  rw [Sstack.toList, List.filterMap_congr hslot, h.size, filterMap_getElem?_range]

/-- Every `Push` writes the slot at position `size`. -/
theorem Holds.push_slot (h : s.Holds L) (x : Item α) :
    ∃ s', s.push x = some s' ∧ getSlot s'.blocks (s.size / blockSize) (s.size % blockSize) = some (some x) := by
  obtain ⟨s', hs', hH, -⟩ := h.push x
  refine ⟨s', hs', hH.slots _ x ?_⟩
  rw [h.size, List.getElem?_append_right (Nat.le_refl _), Nat.sub_self]
  rfl

/-! ## Runs of calls -/

/-- The calls of `container/heap` that change the sstack. -/
inductive Call (α : Type)
  | push (x : Item α)
  | pop
  | swap (i j : ℕ)

/-- A call on the sstack; the item `Pop` returns is dropped. -/
def Call.apply : Call α → Sstack α → Option (Sstack α)
  | .push x, s => s.push x
  | .pop, s => s.pop.map Prod.snd
  | .swap i j, s => s.swap i j

/-- The same call on a list: append, drop the last element, exchange. A `Pop`
of nothing and a `Swap` out of range are calls `container/heap` never makes. -/
def Call.applyList : Call α → List (Item α) → Option (List (Item α))
  | .push x, L => some (L ++ [x])
  | .pop, L => if L = [] then none else some L.dropLast
  | .swap i j, L => if i < L.length ∧ j < L.length then some (L.swap i j) else none

/-- A sequence of calls on the sstack. -/
def runCalls : List (Call α) → Sstack α → Option (Sstack α)
  | [], s => some s
  | c :: cs, s => (c.apply s).bind (runCalls cs)

/-- A sequence of calls on a list. -/
def runList : List (Call α) → List (Item α) → Option (List (Item α))
  | [], L => some L
  | c :: cs, L => (c.applyList L).bind (runList cs)

theorem Holds.apply (h : s.Holds L) {c : Call α} {L' : List (Item α)} (hc : c.applyList L = some L') :
    ∃ s', c.apply s = some s' ∧ s'.Holds L' := by
  cases c with
  | push x =>
      cases hc
      obtain ⟨s', hs', hH, -⟩ := h.push x
      exact ⟨s', hs', hH⟩
  | pop =>
      simp only [Call.applyList] at hc
      split_ifs at hc with hne
      cases hc
      obtain ⟨s', hs', hH, -⟩ := h.pop hne
      exact ⟨s', by simp [Call.apply, hs'], hH⟩
  | swap i j =>
      simp only [Call.applyList] at hc
      split_ifs at hc with hij
      cases hc
      obtain ⟨s', hs', hH, -⟩ := h.swap hij.1 hij.2
      exact ⟨s', hs', hH⟩

/-- The sstack holds the list a run of calls builds, across any number of
block boundaries crossed either way. -/
theorem Holds.runCalls : ∀ (cs : List (Call α)) {s : Sstack α} {L L' : List (Item α)}, s.Holds L →
    runList cs L = some L' → ∃ s', runCalls cs s = some s' ∧ s'.Holds L'
  | [], s, L, L', h, hr => by
      cases hr
      exact ⟨s, rfl, h⟩
  | c :: cs, s, L, L', h, hr => by
      obtain ⟨L₁, hc, hr⟩ := Option.bind_eq_some_iff.mp hr
      obtain ⟨s₁, hs₁, h₁⟩ := h.apply hc
      obtain ⟨s', hs', h'⟩ := h₁.runCalls cs hr
      exact ⟨s', by simp [Sstack.runCalls, hs₁, hs'], h'⟩

/-- The order `Less` puts items in: `a` before `b`. -/
def higher (wrapAround : Bool) (a b : Item α) : Prop :=
  if wrapAround then a.priority - b.priority > 0 else a.priority > b.priority

instance (wrapAround : Bool) : DecidableRel (higher (α := α) wrapAround) := fun a b =>
  inferInstanceAs (Decidable (if wrapAround then a.priority - b.priority > 0 else a.priority > b.priority))

theorem Holds.less (h : s.Holds L) {i j : ℕ} (hi : i < L.length) (hj : j < L.length) :
    s.less i j = some (decide (higher s.wrapAround L[i] L[j])) := by
  simp only [Sstack.less, h.slots i _ (List.getElem?_eq_getElem hi), h.slots j _ (List.getElem?_eq_getElem hj),
    Option.bind_eq_bind, Option.bind_some, higher]
  cases s.wrapAround <;> rfl

/-- The sstack runs the heap functions as a slice of its items does. -/
theorem simulates (w : Bool) :
    Simulates (heapInterface (α := α)) (higher w) fun s L => s.Holds L ∧ s.wrapAround = w where
  len hR := hR.1.size
  less := by
    intro s L i j b hR hl
    obtain ⟨hi, hj⟩ := lt_of_less_listInterface hl
    rw [less_listInterface hi hj] at hl
    rw [← hl, ← hR.2]
    exact hR.1.less hi hj
  swap := by
    intro s L i j L' hR hs
    simp only [listInterface] at hs
    split_ifs at hs with hij
    cases hs
    obtain ⟨s', hs', hH, hw⟩ := hR.1.swap hij.1 hij.2
    exact ⟨s', hs', hH, hw.trans hR.2⟩
  append := by
    intro s L x hR
    obtain ⟨s', hs', hH, hw⟩ := hR.1.push x
    exact ⟨s', hs', hH, hw.trans hR.2⟩
  dropLast := by
    intro s L x L' hR hp
    simp only [listInterface, Option.map_eq_some_iff, Prod.mk.injEq] at hp
    obtain ⟨y, hy, rfl, rfl⟩ := hp
    have hne : L ≠ [] := by
      rintro rfl
      simp at hy
    obtain ⟨s', hs', hH, hw⟩ := hR.1.pop hne
    exact ⟨s', by simp [heapInterface, hs', hy], hH, hw.trans hR.2⟩

@[simp] theorem not_higher_false {a b : Item α} : ¬ higher false a b ↔ a.priority ≤ b.priority := by
  rw [higher, if_neg Bool.false_ne_true, gt_iff_lt, Int64.lt_iff_toInt_lt, Int64.le_iff_toInt_le]
  omega

instance : Std.Asymm (higher (α := α) false) where
  asymm a b := by
    simp only [higher, if_neg Bool.false_ne_true, gt_iff_lt, Int64.lt_iff_toInt_lt]
    omega

instance : IsOrderConnected (Item α) (higher false) where
  conn a b c := by
    simp only [higher, if_neg Bool.false_ne_true, gt_iff_lt, Int64.lt_iff_toInt_lt]
    omega

end Sstack

/-! ## The queue -/

/-- `Prque`. -/
structure Prque (α : Type) where
  cont : Sstack α

namespace Prque

open Sstack

variable {α : Type}

/-- `New`. -/
def new : Prque α := ⟨Sstack.new false⟩

/-- `NewWrapAround`. -/
def newWrapAround : Prque α := ⟨Sstack.new true⟩

/-- `Prque.Push`. -/
def push (data : α) (priority : Int64) (p : Prque α) : Option (Prque α) :=
  (Heap.push heapInterface ⟨data, priority⟩ p.cont).map mk

/-- `Prque.Peek`: the item in `blocks[0][0]`, a nil one being a panic. -/
def peek (p : Prque α) : Option (α × Int64) :=
  (getSlot p.cont.blocks 0 0).join.map fun item => (item.value, item.priority)

/-- `Prque.Pop`. -/
def pop (p : Prque α) : Option ((α × Int64) × Prque α) :=
  (Heap.pop heapInterface p.cont).map fun (item, s) => ((item.value, item.priority), ⟨s⟩)

/-- `Prque.PopItem`. -/
def popItem (p : Prque α) : Option (α × Prque α) :=
  (Heap.pop heapInterface p.cont).map fun (item, s) => (item.value, ⟨s⟩)

/-- `Prque.Remove`, which returns the item itself; a negative index returns nil. -/
def remove (i : ℤ) (p : Prque α) : Option (Option (Item α) × Prque α) :=
  if i < 0 then some (none, p)
  else (Heap.remove heapInterface p.cont i.toNat).map fun (item, s) => (some item, ⟨s⟩)

/-- `Prque.Empty`. -/
def empty (p : Prque α) : Bool := p.cont.size = 0

/-- `Prque.Size`. -/
def size (p : Prque α) : ℕ := p.cont.size

/-- `Prque.Reset`: the queue `New` makes, so a wrap-around queue comes back plain. -/
def reset (_ : Prque α) : Prque α := new

/-- The calls that change a queue. -/
inductive Op (α : Type)
  | push (data : α) (priority : Int64)
  | pop
  | popItem
  | remove (i : ℤ)
  | reset

/-- A call, its answer dropped. -/
def Op.apply : Op α → Prque α → Option (Prque α)
  | .push data priority, p => p.push data priority
  | .pop, p => p.pop.map Prod.snd
  | .popItem, p => p.popItem.map Prod.snd
  | .remove i, p => (p.remove i).map Prod.snd
  | .reset, p => some p.reset

/-- The calls the queue's contract allows on `n` items: `Pop` and `PopItem`
with an item there, `Remove` with an index below `n`. -/
def Op.Fits : Op α → ℕ → Prop
  | .pop, n => 0 < n
  | .popItem, n => 0 < n
  | .remove i, n => i < n
  | _, _ => True

/-- The queues a caller reaches from `New` by the calls the contract allows. -/
inductive Reachable : Prque α → Prop
  | new : Reachable new
  | step {p p' : Prque α} {op : Op α} : Reachable p → op.Fits p.size → op.apply p = some p' → Reachable p'

/-- The sstack of `p` holds `L`, a heap in the plain order. -/
structure Valid (p : Prque α) (L : List (Item α)) : Prop where
  holds : p.cont.Holds L
  plain : p.cont.wrapAround = false
  heap : IsHeap (higher false) L

variable {p : Prque α} {L : List (Item α)}

theorem valid_new : (new : Prque α).Valid [] where
  holds := holds_new false
  plain := rfl
  heap := by
    intro c _ hc
    simp at hc

theorem Valid.push (hv : p.Valid L) (data : α) (priority : Int64) :
    ∃ p' L', p.push data priority = some p' ∧ p'.Valid L' ∧ L'.Perm (L ++ [⟨data, priority⟩]) := by
  obtain ⟨L', hp, hperm, hh⟩ := push_spec hv.heap (⟨data, priority⟩ : Item α)
  obtain ⟨s', hs', hH, hw⟩ := (simulates false).heapPush ⟨hv.holds, hv.plain⟩ hp
  exact ⟨⟨s'⟩, L', by simp [Prque.push, hs'], ⟨hH, hw, hh⟩, hperm⟩

/-- `heap.Pop` on the sstack of a queue with items, which `Pop` and
`PopItem` share. -/
theorem Valid.heapPop (hv : p.Valid L) (hne : L ≠ []) :
    ∃ x s' L', Heap.pop heapInterface p.cont = some (x, s') ∧ L[0]? = some x ∧
      (∀ y ∈ L, y.priority ≤ x.priority) ∧ (x :: L').Perm L ∧ Valid ⟨s'⟩ L' := by
  obtain ⟨x, L', hp, h0, hmax, hperm, hh⟩ := pop_spec hv.heap hne
  obtain ⟨s', hs', hH, hw⟩ := (simulates false).heapPop ⟨hv.holds, hv.plain⟩ hp
  exact ⟨x, s', L', hs', h0, fun y hy => not_higher_false.mp (hmax y hy), hperm, hH, hw, hh⟩

theorem Valid.pop (hv : p.Valid L) (hne : L ≠ []) :
    ∃ x p' L', p.pop = some ((x.value, x.priority), p') ∧ L[0]? = some x ∧
      (∀ y ∈ L, y.priority ≤ x.priority) ∧ (x :: L').Perm L ∧ p'.Valid L' := by
  obtain ⟨x, s', L', hp, h0, hmax, hperm, hv'⟩ := hv.heapPop hne
  exact ⟨x, ⟨s'⟩, L', by simp [Prque.pop, hp], h0, hmax, hperm, hv'⟩

theorem Valid.popItem (hv : p.Valid L) (hne : L ≠ []) :
    ∃ x p' L', p.popItem = some (x.value, p') ∧ L[0]? = some x ∧
      (∀ y ∈ L, y.priority ≤ x.priority) ∧ (x :: L').Perm L ∧ p'.Valid L' := by
  obtain ⟨x, s', L', hp, h0, hmax, hperm, hv'⟩ := hv.heapPop hne
  exact ⟨x, ⟨s'⟩, L', by simp [Prque.popItem, hp], h0, hmax, hperm, hv'⟩

theorem Valid.remove (hv : p.Valid L) {i : ℕ} (hi : i < L.length) :
    ∃ p' L', p.remove i = some (some L[i], p') ∧ (L[i] :: L').Perm L ∧ p'.Valid L' := by
  obtain ⟨L', hr, hperm, hh⟩ := remove_spec hv.heap hi
  obtain ⟨s', hs', hH, hw⟩ := (simulates false).remove ⟨hv.holds, hv.plain⟩ hr
  exact ⟨⟨s'⟩, L', by simp [Prque.remove, hs'], hperm, hH, hw, hh⟩

/-- `Peek` answers the item at position `0`, which has the highest priority. -/
theorem Valid.peek (hv : p.Valid L) {x : Item α} (hx : L[0]? = some x) :
    p.peek = some (x.value, x.priority) ∧ ∀ y ∈ L, y.priority ≤ x.priority := by
  have hslot : getSlot p.cont.blocks 0 0 = some (some x) := hv.holds.slots 0 x hx
  refine ⟨by rw [Prque.peek, hslot]; rfl, fun y hy => ?_⟩
  exact not_higher_false.mp (hv.heap.not_before_first hx y hy)

/-- Every call the contract allows keeps a valid queue valid, and none panics. -/
theorem Valid.apply (hv : p.Valid L) {op : Op α} (hf : op.Fits p.size) :
    ∃ p' L', op.apply p = some p' ∧ p'.Valid L' := by
  have hsize : p.size = L.length := hv.holds.size
  cases op with
  | push data priority =>
      obtain ⟨p', L', hp, hv', -⟩ := hv.push data priority
      exact ⟨p', L', hp, hv'⟩
  | pop =>
      obtain ⟨x, p', L', hp, -, -, -, hv'⟩ := hv.pop (List.ne_nil_of_length_pos (hsize ▸ hf))
      exact ⟨p', L', by simp [Op.apply, hp], hv'⟩
  | popItem =>
      obtain ⟨x, p', L', hp, -, -, -, hv'⟩ := hv.popItem (List.ne_nil_of_length_pos (hsize ▸ hf))
      exact ⟨p', L', by simp [Op.apply, hp], hv'⟩
  | remove i =>
      by_cases hneg : i < 0
      · exact ⟨p, L, by simp [Op.apply, Prque.remove, hneg], hv⟩
      · -- a non-negative index below the size
        obtain ⟨n, rfl⟩ := Int.eq_ofNat_of_zero_le (Int.not_lt.mp hneg)
        have hn : n < L.length := by
          simp only [Op.Fits] at hf
          omega
        obtain ⟨p', L', hp, -, hv'⟩ := hv.remove hn
        exact ⟨p', L', by simp [Op.apply, hp], hv'⟩
  | reset => exact ⟨new, [], rfl, valid_new⟩

theorem Reachable.valid (hr : p.Reachable) : ∃ L, p.Valid L := by
  induction hr with
  | new => exact ⟨[], valid_new⟩
  | step _ hf hp ih =>
      obtain ⟨L, hv⟩ := ih
      obtain ⟨p', L', hp', hv'⟩ := hv.apply hf
      rw [hp] at hp'
      cases hp'
      exact ⟨L', hv'⟩

end Prque

open Sstack in
/-- The sstack is a growable array: from any state that holds a list, every
sequence of `Push`, `Pop` and `Swap` calls leaves it holding the list those
calls build, and `Push` writes the slot at position `size`. A queue reached
from `New` holds a heap: every allowed call goes through, `Peek` answers the
item at position `0` and `Pop` removes it, and no item has a higher priority. -/
theorem sstack_faithful_growable_array {α : Type} :
    (∀ w, (Sstack.new w : Sstack α).Holds []) ∧
    (∀ (cs : List (Call α)) (s : Sstack α) (L L' : List (Item α)), s.Holds L → runList cs L = some L' →
      ∃ s', runCalls cs s = some s' ∧ s'.Holds L' ∧ s'.toList = L') ∧
    (∀ (s : Sstack α) (L : List (Item α)) (x : Item α), s.Holds L →
      ∃ s', s.push x = some s' ∧ getSlot s'.blocks (s.size / blockSize) (s.size % blockSize) = some (some x)) ∧
    (∀ p : Prque α, p.Reachable → ∃ L, p.cont.Holds L ∧ p.cont.toList = L ∧ IsHeap (higher false) L ∧
      (∀ op : Prque.Op α, op.Fits p.size → ∃ p', op.apply p = some p') ∧
      ∀ x, L[0]? = some x → p.peek = some (x.value, x.priority) ∧
        (∃ p', p.pop = some ((x.value, x.priority), p')) ∧ ∀ y ∈ L, y.priority ≤ x.priority) := by
  refine ⟨holds_new, fun cs s L L' h hr => ?_, fun s L x h => h.push_slot x, fun p hr => ?_⟩
  · obtain ⟨s', hs', h'⟩ := h.runCalls cs hr
    exact ⟨s', hs', h', h'.toList⟩
  · obtain ⟨L, hv⟩ := hr.valid
    refine ⟨L, hv.holds, hv.holds.toList, hv.heap, fun op hf => ?_, fun x hx => ?_⟩
    · obtain ⟨p', L', hp', -⟩ := hv.apply hf
      exact ⟨p', hp'⟩
    · obtain ⟨hpeek, hmax⟩ := hv.peek hx
      obtain ⟨x', p', L', hp, hx', -⟩ := hv.pop (List.ne_nil_of_mem (List.mem_of_getElem? hx))
      rw [hx, Option.some_inj] at hx'
      subst hx'
      exact ⟨hpeek, ⟨p', hp⟩, hmax⟩

/-- Two pushes, an exchange and a pop leave the sstack of `New` holding the
item pushed second. -/
theorem sstack_faithful_growable_array_swap_pop :
    ∃ s', Sstack.runCalls [.push ⟨(), 1⟩, .push ⟨(), 2⟩, .swap 0 1, .pop] (Sstack.new false) = some s' ∧
      s'.toList = [⟨(), 2⟩] := by
  obtain ⟨s', hs', -, hL⟩ := (sstack_faithful_growable_array (α := Unit)).2.1
    [.push ⟨(), 1⟩, .push ⟨(), 2⟩, .swap 0 1, .pop] (Sstack.new false) [] [⟨(), 2⟩] (Sstack.holds_new false) rfl
  exact ⟨s', hs', hL⟩

end GoQuai.Common
