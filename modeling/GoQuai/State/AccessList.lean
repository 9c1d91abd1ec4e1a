import GoQuai.Common.Address
import Mathlib.Data.Finset.Card

/-! # The access list

`accessList` keeps, per address, either no slots (`-1`) or the index of its
slot set in `slots`. A slot set is created holding one slot and is cut off when
reverting its last slot empties it, so every slot set in the list is nonempty;
the structure carries that as a field. The journal undoes additions with
`DeleteSlot` and `DeleteAddress`, in the reverse order of the additions.

A panic (a missing address, an index out of range) is `none`.
-/

namespace GoQuai.State

open Function GoQuai.Common

/-- `state.accessList`. -/
@[ext] structure AccessList where
  addresses : AddressBytes → Option ℤ
  slots : List (Finset Hash)
  slots_nonempty : ∀ s ∈ slots, s.Nonempty

namespace AccessList

/-- `newAccessList`. -/
def empty : AccessList := ⟨fun _ => none, [], by simp⟩

/-- `al.slots[idx]`: a negative index panics. -/
def slotSet (al : AccessList) (idx : ℤ) : Option (Finset Hash) :=
  if idx < 0 then none else al.slots[idx.toNat]?

/-- `ContainsAddress`. -/
def containsAddress (al : AccessList) (address : AddressBytes) : Bool :=
  (al.addresses address).isSome

/-- `Contains`: whether the address, and the slot under it, are present. -/
def contains (al : AccessList) (address : AddressBytes) (slot : Hash) : Option (Bool × Bool) :=
  match al.addresses address with
  | none => some (false, false)
  | some idx =>
      if idx = -1 then some (true, false)
      else (al.slotSet idx).map fun s => (true, decide (slot ∈ s))

/-- `AddAddress`: the list, and whether the address was new. -/
def addAddress (al : AccessList) (address : AddressBytes) : AccessList × Bool :=
  if (al.addresses address).isSome then (al, false)
  else ({ al with addresses := update al.addresses address (some (-1)) }, true)

/-- The branch of `AddSlot` that gives the address a fresh slot set. -/
def newSlotSet (al : AccessList) (address : AddressBytes) (slot : Hash) : AccessList where
  addresses := update al.addresses address (some al.slots.length)
  slots := al.slots ++ [{slot}]
  slots_nonempty := by
    intro s hs
    rcases List.mem_append.mp hs with hs | hs
    · exact al.slots_nonempty s hs
    · rw [List.mem_singleton.mp hs]
      exact Finset.singleton_nonempty slot

/-- `AddSlot`: the list, whether the address was new, and whether the slot
was. -/
def addSlot (al : AccessList) (address : AddressBytes) (slot : Hash) :
    Option (AccessList × Bool × Bool) :=
  match al.addresses address with
  | none => some (al.newSlotSet address slot, true, true)
  | some idx =>
      if idx = -1 then some (al.newSlotSet address slot, false, true)
      else do
        let s ← al.slotSet idx
        if slot ∈ s then some (al, false, false)
        else some (⟨al.addresses, al.slots.set idx.toNat (insert slot s), by
          intro t ht
          rcases List.mem_or_eq_of_mem_set ht with ht | rfl
          · exact al.slots_nonempty t ht
          · exact Finset.insert_nonempty slot s⟩, false, true)

/-- `DeleteSlot`: remove the slot, and the slot set with it when it empties. -/
def deleteSlot (al : AccessList) (address : AddressBytes) (slot : Hash) : Option AccessList :=
  match al.addresses address with
  | none => none
  | some idx => do
      let s ← al.slotSet idx
      if h : (s.erase slot).card = 0 then
        some ⟨update al.addresses address (some (-1)), al.slots.take idx.toNat,
          fun t ht => al.slots_nonempty t (List.mem_of_mem_take ht)⟩
      else
        some ⟨al.addresses, al.slots.set idx.toNat (s.erase slot), by
          intro t ht
          rcases List.mem_or_eq_of_mem_set ht with ht | rfl
          · exact al.slots_nonempty t ht
          · exact Finset.card_pos.mp (Nat.pos_of_ne_zero h)⟩

/-- `DeleteAddress`. -/
def deleteAddress (al : AccessList) (address : AddressBytes) : AccessList :=
  { al with addresses := update al.addresses address none }

theorem deleteAddress_addAddress {al al' : AccessList} {address : AddressBytes}
    (h : al.addAddress address = (al', true)) : al'.deleteAddress address = al := by
  unfold addAddress at h
  split_ifs at h with hsome
  · cases h
  · simp only [Prod.mk.injEq, and_true] at h
    subst h
    ext1
    · simp only [deleteAddress, update_idem]
      exact update_eq_self_iff.mpr (Option.not_isSome_iff_eq_none.mp hsome).symm
    · rfl

/-- Reverting the fresh slot set restores the address's old entry. -/
theorem deleteSlot_newSlotSet (al : AccessList) (address : AddressBytes) (slot : Hash) :
    (al.newSlotSet address slot).deleteSlot address slot =
      some { al with addresses := update al.addresses address (some (-1)) } := by
  simp only [deleteSlot, newSlotSet, update_self, slotSet,
    if_neg (show ¬((al.slots.length : ℤ) < 0) by omega), Int.toNat_natCast,
    List.getElem?_append_right (le_refl _), Nat.sub_self, List.getElem?_cons_zero,
    Option.bind_eq_bind, Option.bind_some, Finset.erase_singleton, Finset.card_empty,
    dite_true, update_idem, List.take_left' rfl]

/-- A slot added to an existing slot set is removed again, and the set stays
because it was not empty before. -/
theorem deleteSlot_insert {al : AccessList} {address : AddressBytes} {slot : Hash} {idx : ℤ}
    {s : Finset Hash} (haddr : al.addresses address = some idx) (hs : al.slotSet idx = some s)
    (hnot : slot ∉ s) :
    (⟨al.addresses, al.slots.set idx.toNat (insert slot s), fun t ht => by
        rcases List.mem_or_eq_of_mem_set ht with ht | rfl
        · exact al.slots_nonempty t ht
        · exact Finset.insert_nonempty slot s⟩ : AccessList).deleteSlot address slot = some al := by
  unfold slotSet at hs
  split_ifs at hs with hneg
  have hlt : idx.toNat < al.slots.length := (List.getElem?_eq_some_iff.mp hs).1
  have hget : al.slots[idx.toNat] = s := (List.getElem?_eq_some_iff.mp hs).2
  have hne : (Finset.erase (insert slot s) slot).card ≠ 0 := by
    rw [Finset.erase_insert hnot]
    exact Finset.card_ne_zero.mpr (al.slots_nonempty s (hget ▸ List.getElem_mem hlt))
  simp only [deleteSlot, haddr, slotSet, hneg, if_false, List.getElem?_set_self hlt,
    Option.bind_eq_bind, Option.bind_some, dif_neg hne, Option.some.injEq]
  ext1
  · rfl
  · simp only [Finset.erase_insert hnot, List.set_set]
    rw [← hget, List.set_getElem_self]

/-- The journal entries of `AddSlot` undo it: the slot's entry first, then the
address's. -/
theorem undo_addSlot {al al' : AccessList} {address : AddressBytes} {slot : Hash}
    {addrMod slotMod : Bool} (h : al.addSlot address slot = some (al', addrMod, slotMod)) :
    ((if slotMod then al'.deleteSlot address slot else some al').map fun al'' =>
      if addrMod then al''.deleteAddress address else al'') = some al := by
  unfold addSlot at h
  rcases haddr : al.addresses address with _ | idx
  · -- a new address: both entries
    simp only [haddr, Option.some.injEq, Prod.mk.injEq] at h
    obtain ⟨rfl, rfl, rfl⟩ := h
    simp only [if_true, deleteSlot_newSlotSet, Option.map_some, Option.some.injEq]
    ext1
    · simp only [deleteAddress, update_idem]
      exact update_eq_self_iff.mpr haddr.symm
    · rfl
  · simp only [haddr] at h
    split_ifs at h with hfree
    · -- an address without slots: only the slot's entry
      simp only [Option.some.injEq, Prod.mk.injEq] at h
      obtain ⟨rfl, rfl, rfl⟩ := h
      simp only [if_true, deleteSlot_newSlotSet, Option.map_some, Bool.false_eq_true, if_false,
        Option.some.injEq]
      ext1
      · exact update_eq_self_iff.mpr (hfree ▸ haddr).symm
      · rfl
    · -- an existing slot set
      rcases hs : al.slotSet idx with _ | s
      · simp [hs] at h
      simp only [hs, Option.bind_eq_bind, Option.bind_some] at h
      split_ifs at h with hin
      · simp only [Option.some.injEq, Prod.mk.injEq] at h
        obtain ⟨rfl, rfl, rfl⟩ := h
        simp
      · simp only [Option.some.injEq, Prod.mk.injEq] at h
        obtain ⟨rfl, rfl, rfl⟩ := h
        simp only [if_true, deleteSlot_insert haddr hs hin, Option.map_some, Bool.false_eq_true,
          if_false]

end AccessList

end GoQuai.State
