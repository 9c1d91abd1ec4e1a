import Mathlib.Data.Nat.Digits.Lemmas

/-! # Big-endian bytes of a number

The shortest big-endian byte string of a number, and the number a byte string
denotes, as Mathlib's base-256 digits. A byte string without a leading zero is
the shortest one of its number, which is what makes a length prefix canonical.
-/

namespace GoQuai.BigEndian

/-- The bytes of `n`, most significant first, without leading zeros. -/
def toBytes (n : ℕ) : List UInt8 := (Nat.digits 256 n).reverse.map UInt8.ofNat

/-- The number a byte string denotes, most significant byte first. -/
def ofBytes (bs : List UInt8) : ℕ := Nat.ofDigits 256 (bs.reverse.map UInt8.toNat)

theorem toNat_ofNat_digit {n d : ℕ} (hd : d ∈ Nat.digits 256 n) : (UInt8.ofNat d).toNat = d :=
  UInt8.toNat_ofNat_of_lt (Nat.digits_lt_base (by norm_num) hd)

@[simp] theorem length_toBytes (n : ℕ) : (toBytes n).length = (Nat.digits 256 n).length := by
  simp [toBytes]

theorem toBytes_eq_nil_iff {n : ℕ} : toBytes n = [] ↔ n = 0 := by
  simp [toBytes, Nat.digits_eq_nil_iff_eq_zero]

@[simp] theorem toBytes_zero : toBytes 0 = [] := toBytes_eq_nil_iff.mpr rfl

@[simp] theorem ofBytes_toBytes (n : ℕ) : ofBytes (toBytes n) = n := by
  have hmap : ((Nat.digits 256 n).map UInt8.ofNat).map UInt8.toNat = Nat.digits 256 n := by
    rw [List.map_map]
    conv_rhs => rw [← List.map_id (Nat.digits 256 n)]
    exact List.map_congr_left fun d hd => toNat_ofNat_digit hd
  simp only [ofBytes, toBytes, List.map_reverse, List.reverse_reverse, hmap, Nat.ofDigits_digits]

theorem length_toBytes_le_iff {n k : ℕ} : (toBytes n).length ≤ k ↔ n < 256 ^ k := by
  rw [length_toBytes, Nat.digits_length_le_iff (by norm_num)]

theorem ofBytes_lt (bs : List UInt8) : ofBytes bs < 256 ^ bs.length := by
  have h := Nat.ofDigits_lt_base_pow_length (b := 256) (l := bs.reverse.map UInt8.toNat)
    (by norm_num) (by
      intro x hx
      obtain ⟨b, -, rfl⟩ := List.mem_map.mp hx
      exact b.toNat_lt)
  simpa [ofBytes] using h

/-- A byte string with no leading zero is the shortest encoding of its number. -/
theorem toBytes_ofBytes {bs : List UInt8} (hlead : ∀ b ∈ bs.head?, b ≠ 0) :
    toBytes (ofBytes bs) = bs := by
  have hdigits : Nat.digits 256 (ofBytes bs) = bs.reverse.map UInt8.toNat := by
    apply Nat.digits_ofDigits 256 (by norm_num)
    · intro x hx
      obtain ⟨b, -, rfl⟩ := List.mem_map.mp hx
      exact b.toNat_lt
    · cases bs with
      | nil => simp
      | cons b bs =>
          intro _
          simp only [List.reverse_cons, List.map_append, List.map_cons, List.map_nil]
          intro hzero
          exact hlead b rfl (UInt8.toNat_inj.mp (by simpa using hzero))
  simp only [toBytes, hdigits, List.map_reverse, List.reverse_reverse, List.map_map]
  conv_rhs => rw [← List.map_id bs]
  exact List.map_congr_left fun b _ => UInt8.ofNat_toNat

theorem head_toBytes_ne_zero (n : ℕ) : ∀ b ∈ (toBytes n).head?, b ≠ 0 := by
  intro b hb hzero
  subst hzero
  rcases Nat.eq_zero_or_pos n with rfl | hn
  · simp at hb
  have hne : Nat.digits 256 n ≠ [] := Nat.digits_ne_nil_iff_ne_zero.mpr hn.ne'
  have hhead : (toBytes n).head? = some (UInt8.ofNat ((Nat.digits 256 n).getLast hne)) := by
    simp [toBytes, List.head?_reverse, List.getLast?_eq_some_getLast hne]
  rw [hhead, Option.mem_some_iff] at hb
  apply Nat.getLast_digit_ne_zero 256 hn.ne'
  rw [← toNat_ofNat_digit (List.getLast_mem hne), hb]
  rfl

/-- The shortest bytes of `n` are the bytes without a leading zero that denote `n`. -/
theorem toBytes_eq_iff {n : ℕ} {bs : List UInt8} :
    toBytes n = bs ↔ (∀ b ∈ bs.head?, b ≠ 0) ∧ ofBytes bs = n := by
  constructor
  · rintro rfl
    exact ⟨head_toBytes_ne_zero n, ofBytes_toBytes n⟩
  · rintro ⟨hlead, rfl⟩
    exact toBytes_ofBytes hlead

end GoQuai.BigEndian
