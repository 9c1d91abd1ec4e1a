import Mathlib

/-! # Binary search for the first index of a predicate

The loop of Go's `sort.Search(n, f)`: the interval `[i, j)` is halved at
`(i + j) / 2`, keeping the half that still holds the first index where `f` is
true. For a predicate that is false and then true, it returns that index, or
`n` when there is none.
-/

namespace GoQuai.Search

/-- The loop of `sort.Search` on `[i, j)`, fuelled by the width of the
interval, which every round shrinks. -/
def search (f : ℕ → Bool) : ℕ → ℕ → ℕ → ℕ
  | 0, i, _ => i
  | fuel + 1, i, j =>
      if i < j then
        if f ((i + j) / 2) then search f fuel i ((i + j) / 2)
        else search f fuel ((i + j) / 2 + 1) j
      else i

/-- `sort.Search(n, f)`. -/
def sortSearch (n : ℕ) (f : ℕ → Bool) : ℕ := search f n 0 n

variable {f : ℕ → Bool}

theorem true_of_le (hf : Monotone f) {a b : ℕ} (hab : a ≤ b) (ha : f a = true) : f b = true := by
  have h := hf hab
  rw [ha] at h
  cases hfb : f b
  · rw [hfb] at h
    exact absurd h (by decide)
  · rfl

/-- What the search returns: an index in `[i, j]` below which `f` is false and
at which, unless it is `j`, `f` is true. -/
theorem search_spec (hf : Monotone f) :
    ∀ fuel i j : ℕ, j - i ≤ fuel → i ≤ j →
      i ≤ search f fuel i j ∧ search f fuel i j ≤ j ∧
        (∀ m, i ≤ m → m < search f fuel i j → f m = false) ∧
        (search f fuel i j < j → f (search f fuel i j) = true)
  | 0, i, j, hfuel, hij => by
      rw [search]
      exact ⟨le_rfl, hij, fun m hm hmi => by omega, fun h => by omega⟩
  | fuel + 1, i, j, hfuel, hij => by
      rw [search]
      split_ifs with hlt hmid
      · -- the first true index is at or below the midpoint
        obtain ⟨hlo, hhi, hbelow, hat⟩ :=
          search_spec hf fuel i ((i + j) / 2) (by omega) (by omega)
        refine ⟨hlo, by omega, hbelow, fun _ => ?_⟩
        rcases Nat.lt_or_ge (search f fuel i ((i + j) / 2)) ((i + j) / 2) with h | h
        · exact hat h
        · rwa [show search f fuel i ((i + j) / 2) = (i + j) / 2 by omega]
      · -- `f` is false up to the midpoint, so the first true index is above it
        obtain ⟨hlo, hhi, hbelow, hat⟩ :=
          search_spec hf fuel ((i + j) / 2 + 1) j (by omega) (by omega)
        refine ⟨by omega, hhi, fun m hm hmr => ?_, hat⟩
        rcases Nat.lt_or_ge m ((i + j) / 2 + 1) with h | h
        · cases hfm : f m
          · rfl
          · exact absurd (true_of_le hf (by omega) hfm) hmid
        · exact hbelow m h hmr
      · exact ⟨le_rfl, hij, fun m hm hmi => by omega, fun h => by omega⟩

/-- The search finds the first index where `f` holds. -/
theorem sortSearch_eq (hf : Monotone f) {n k : ℕ} (hk : k ≤ n)
    (hbelow : ∀ m < k, f m = false) (hat : k < n → f k = true) : sortSearch n f = k := by
  obtain ⟨-, hle, hfalse, htrue⟩ := search_spec hf n 0 n (by omega) (Nat.zero_le n)
  unfold sortSearch
  rcases Nat.lt_trichotomy (search f n 0 n) k with h | h | h
  · have := hbelow _ h
    rw [htrue (by omega)] at this
    cases this
  · exact h
  · have := hfalse k (Nat.zero_le _) h
    rw [hat (by omega)] at this
    cases this

end GoQuai.Search
