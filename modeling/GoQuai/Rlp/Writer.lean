import GoQuai.Rlp.Value

/-! # The writers

`makeWriter` of `rlp/encode.go` and the writers it returns, on the values of
`Value`, and `EncodeToBytes`, `Encode` and `EncodeToReader` over them. Every
writer appends, once the deferred list headers are spliced in, the reference
encoding of the RLP values the value stands for (`writes_write`); the three
entry points then hand out those bytes. -/

namespace GoQuai.Rlp

open GoQuai.BigEndian

/-- `writeUint`. -/
def writeUint (n : ℕ) (w : Encbuf) : Encbuf := w.encodeUint n

/-- `writeBool`. -/
def writeBool (b : Bool) (w : Encbuf) : Encbuf := if b then w.write [0x01] else w.write [0x80]

/-- `writeBigInt` of a non-negative integer: a `uint64` when its bit length
is at most 64, else a string header and the big-endian bytes the word loop
fills into the `((bitlen + 7) & -8) >> 3` bytes it needs. -/
def writeBigInt (i : ℕ) (w : Encbuf) : Encbuf :=
  if i < 2 ^ 64 then w.encodeUint i
  else (w.encodeStringHeader (toBytes i).length).write (toBytes i)

/-- `writeBytes`. -/
def writeBytes (b : List UInt8) (w : Encbuf) : Encbuf := w.encodeString b

/-- `writeString`. -/
def writeString (s : List UInt8) (w : Encbuf) : Encbuf :=
  if singleByte s then w.write s else (w.encodeStringHeader s.length).write s

/-- `writeLengthZeroByteArray`. -/
def writeLengthZeroByteArray (w : Encbuf) : Encbuf := w.write [0x80]

/-- `writeLengthOneByteArray`. -/
def writeLengthOneByteArray (b : UInt8) (w : Encbuf) : Encbuf :=
  if b ≤ 0x7F then w.write [b] else w.write [0x81, b]

/-- `writeByteArray`, for arrays of two bytes or more. -/
def writeByteArray (b : List UInt8) (w : Encbuf) : Encbuf := (w.encodeStringHeader b.length).write b

/-- `makeByteArrayWriter`. -/
def makeByteArrayWriter : ℕ → List UInt8 → Encbuf → Encbuf
  | 0, _, w => writeLengthZeroByteArray w
  | 1, b, w => writeLengthOneByteArray (b.headD 0) w
  | _, b, w => writeByteArray b w

mutual
/-- The writer `makeWriter` makes for `t` with the tags `ts`, run on `v`. -/
def write : Ty → Tags → Val → Encbuf → Encbuf
  | .bigInt, _, .bigInt i, w => writeBigInt i w
  -- `makePtrWriter`; a nil `*big.Int` is `writeBigIntPtr`'s empty string, and
  -- a non-nil one is `writeBigInt` of what it points to either way
  | .ptr e, ts, .nil, w =>
      if e.isBigInt then w.write [0x80]
      else if ts.nilKindOf e = .string then w.write [0x80]
      else (w.list.2).listEnd w.list.1
  | .ptr e, _, .ptr v, w => write e noTags v w
  | .uint _, _, .uint n, w => writeUint n w
  | .bool, _, .bool b, w => writeBool b w
  | .string, _, .bytes s, w => writeString s w
  | .bytes, _, .bytes b, w => writeBytes b w
  | .byteArray len, _, .bytes b, w => makeByteArrayWriter len b w
  -- `makeSliceWriter`: a `tail` slice has no list of its own
  | .slice e, ts, .list xs, w | .array _ e, ts, .list xs, w =>
      if ts.tail then writeElems e xs w
      else (writeElems e xs w.list.2).listEnd w.list.1
  -- `makeStructWriter`
  | .struct fs, _, .list xs, w => (writeFields fs xs (keptFields fs xs) w.list.2).listEnd w.list.1
  -- `writeInterface`: a nil interface is the empty list
  | .iface, _, .nil, w => w.write [0xC0]
  | .iface, _, .iface t v, w => write t noTags v w
  | _, _, _, w => w

/-- The elements of a slice or an array, in order. -/
def writeElems (e : Ty) : List Val → Encbuf → Encbuf
  | [], w => w
  | x :: xs, w => writeElems e xs (write e noTags x w)

/-- The first `n` fields of a struct, each with its tags. -/
def writeFields : List (Ty × Tags) → List Val → ℕ → Encbuf → Encbuf
  | (t, ts) :: fs, x :: xs, n + 1, w => writeFields fs xs n (write t ts x w)
  | _, _, _, w => w
end

-- Generate the equation lemmas of these definitions once, here, rather than in
-- each of the proofs below that unfold them while they are elaborated in parallel.
section
attribute [local simp] write
end

/-- `EncodeToBytes` of a value of type `t`. -/
def encodeToBytes (t : Ty) (v : Val) : List UInt8 := (write t noTags v Encbuf.reset).toBytes

/-- `Encode`: the byte slices `toWriter` writes. -/
def encode (t : Ty) (v : Val) : List (List UInt8) := (write t noTags v Encbuf.reset).toWriter

/-- `EncodeToReader`: the size and a reader over the buffer. -/
def encodeToReader (t : Ty) (v : Val) : ℕ × EncReader :=
  ((write t noTags v Encbuf.reset).size, EncReader.ofBuf (write t noTags v Encbuf.reset))

example : encodeToBytes (.struct [(.uint 64, noTags), (.slice .bytes, noTags)])
    (.list [.uint 1024, .list [.bytes [1], .bytes []]]) = [0xC6, 0x82, 4, 0, 0xC2, 1, 0x80] := by
  decide

/-! ## Each writer against the reference encoding -/

theorem encodeList_append (xs ys : List Item) : encodeList (xs ++ ys) = encodeList xs ++ encodeList ys := by
  induction xs with
  | nil => rfl
  | cons x xs ih => simp [encodeList, ih]

@[simp] theorem encodeList_singleton (i : Item) : encodeList [i] = i.encode := by
  simp [encodeList]

theorem singleByte_of_length_ne_one {b : List UInt8} (hb : b.length ≠ 1) : singleByte b = false := by
  match b, hb with
  | [], _ => rfl
  | _ :: _ :: _, _ => rfl

theorem encode_str_of_length_ne_one {b : List UInt8} (hb : b.length ≠ 1) :
    (Item.str b).encode = header 0x80 0xB7 b.length ++ b := by
  simp [Item.encode, singleByte_of_length_ne_one hb]

theorem toBytes_of_lt {n : ℕ} (h0 : n ≠ 0) (h : n < 256) : toBytes n = [UInt8.ofNat n] := by
  simp [toBytes, Nat.digits_of_lt 256 n h0 h]

theorem length_toBytes_lt_56 {n : ℕ} (h : n < 2 ^ 64) : (toBytes n).length < 56 := by
  have := length_toBytes_le_iff.mpr (show n < 256 ^ 8 by simpa using h)
  omega

theorem singleByte_toBytes {n : ℕ} (h : 128 ≤ n) : singleByte (toBytes n) = false := by
  by_cases hn : n < 256
  · rw [toBytes_of_lt (by omega) hn]
    simp only [singleByte, decide_eq_false_iff_not, UInt8.le_iff_toNat_le, UInt8.toNat_ofNat']
    simp
    omega
  · apply singleByte_of_length_ne_one
    intro h1
    have := length_toBytes_le_iff.mp (le_of_eq h1)
    omega

/-- `encodeUint` writes the shortest big-endian bytes of a `uint64`. -/
theorem writes_encodeUint {n : ℕ} (hn : n < 2 ^ 64) :
    Writes (·.encodeUint n) (Item.str (toBytes n)).encode := by
  refine (Writes.write _).congr fun w => ?_
  unfold Encbuf.encodeUint
  split_ifs with h0 h128
  · subst h0
    rfl
  · have hlt : UInt8.ofNat n < 0x80 := by
      rw [UInt8.lt_iff_toNat_lt, UInt8.toNat_ofNat', Nat.mod_eq_of_lt (show n < 2 ^ 8 by omega)]
      simp only [UInt8.reduceToNat]
      omega
    have hs : singleByte [UInt8.ofNat n] = true := by
      simpa [singleByte] using (Stream.lt_0x80_iff _).mp hlt
    rw [toBytes_of_lt h0 (by omega), Item.encode, if_pos hs]
  · have hlen := length_toBytes_lt_56 hn
    rw [Item.encode, singleByte_toBytes (by omega), if_neg Bool.false_ne_true, header, if_pos hlen,
      intsize, putint_eq_toBytes h0]
    rfl

theorem writes_writeBigInt (i : ℕ) : Writes (writeBigInt i) (Item.str (toBytes i)).encode := by
  unfold writeBigInt
  by_cases hi : i < 2 ^ 64
  · exact (writes_encodeUint hi).congr fun w => if_pos hi
  · refine (Writes.write _).congr fun w => ?_
    have hlen : (toBytes i).length ≠ 1 := fun h1 => hi (by
      have := length_toBytes_le_iff.mp (le_of_eq h1)
      omega)
    rw [if_neg hi, encode_str_of_length_ne_one hlen, encodeStringHeader_eq]
    simp [Encbuf.write]

theorem writes_writeBool (b : Bool) : Writes (writeBool b) (Item.str (if b then [1] else [])).encode := by
  cases b <;> exact (Writes.write _).congr fun _ => rfl

theorem writes_writeString (s : List UInt8) : Writes (writeString s) (Item.str s).encode :=
  (Writes.encodeString s).congr fun _ => rfl

theorem writes_makeByteArrayWriter {b : List UInt8} :
    Writes (makeByteArrayWriter b.length b) (Item.str b).encode := by
  match b with
  | [] => exact (Writes.write _).congr fun _ => rfl
  | [x] =>
      refine (Writes.write _).congr fun w => ?_
      by_cases hx : x ≤ 0x7F
      · simp [makeByteArrayWriter, writeLengthOneByteArray, Item.encode, singleByte, hx]
      · simp [makeByteArrayWriter, writeLengthOneByteArray, Item.encode, singleByte, hx, header]
  | x :: y :: ys =>
      refine (Writes.write _).congr fun w => ?_
      rw [encode_str_of_length_ne_one (by simp)]
      simp [makeByteArrayWriter, writeByteArray, encodeStringHeader_eq, Encbuf.write]

/-- The empty value a nil pointer writes. -/
theorem writes_nilPtr (e : Ty) (ts : Tags) :
    Writes (write (.ptr e) ts .nil) (encodeList (toItems (.ptr e) ts .nil)) := by
  simp only [write, toItems, encodeList_singleton]
  by_cases hb : e.isBigInt
  · simp only [hb, if_true, Bool.true_or]
    exact Writes.write _
  · by_cases hs : ts.nilKindOf e = .string
    · simp only [hb, hs, beq_self_eq_true, Bool.or_true, if_true, Bool.false_eq_true, if_false]
      exact Writes.write _
    · simp only [hb, hs, Bool.false_eq_true, if_false, beq_eq_false_iff_ne.mpr hs, Bool.or_self]
      exact Writes.nil.list

/-- A list of values: the elements' writes in order, inside a list header
unless the slice is a `tail`. -/
theorem writes_list {f : Encbuf → Encbuf} {items : List Item} (tail : Bool) (hf : Writes f (encodeList items)) :
    Writes (fun w => if tail then f w else (f w.list.2).listEnd w.list.1)
      (encodeList (if tail then items else [.list items])) := by
  cases tail
  · simp only [Bool.false_eq_true, if_false, encodeList_singleton]
    exact hf.list
  · simpa using hf

mutual
/-- Every writer appends the reference encoding of what its value stands
for. -/
theorem writes_write (t : Ty) (ts : Tags) : ∀ v : Val, t.wellFormed = true → typed t v = true →
    Writes (write t ts v) (encodeList (toItems t ts v))
  | .uint n, hw, ht => by
      cases t <;> simp only [typed, reduceCtorEq] at ht
      rename_i bits
      have hbits : bits ≤ 64 := by simp [Ty.wellFormed] at hw; omega
      simp only [decide_eq_true_eq] at ht
      have hn : n < 2 ^ 64 := lt_of_lt_of_le ht (Nat.pow_le_pow_right (by norm_num) hbits)
      simpa [write, toItems, writeUint] using writes_encodeUint hn
  | .bool b, _, ht => by
      cases t <;> simp only [typed, reduceCtorEq] at ht
      simpa [write, toItems] using writes_writeBool b
  | .bytes b, _, ht => by
      cases t <;> simp only [typed, reduceCtorEq, beq_iff_eq] at ht
      · simpa [write, toItems] using writes_writeString b
      · simpa [write, toItems, writeBytes] using Writes.encodeString b
      · subst ht
        simpa [write, toItems] using writes_makeByteArrayWriter
  | .bigInt i, _, ht => by
      cases t <;> simp only [typed, reduceCtorEq] at ht
      simpa [write, toItems] using writes_writeBigInt i
  | .list xs, hw, ht => by
      cases t <;> simp only [typed, reduceCtorEq, Bool.and_eq_true, beq_iff_eq] at ht
      case slice e =>
        simp only [Ty.wellFormed, Bool.and_eq_true] at hw
        exact writes_list ts.tail (writes_writeElems e hw.2 xs ht)
      case array len e =>
        simp only [Ty.wellFormed, Bool.and_eq_true] at hw
        exact writes_list ts.tail (writes_writeElems e hw.2 xs ht.2)
      case struct fs =>
        simp only [write, toItems, encodeList_singleton]
        exact (writes_writeFields fs false hw xs (keptFields fs xs) ht).list
  | .nil, _, ht => by
      cases t <;> simp only [typed, reduceCtorEq] at ht
      case ptr => exact writes_nilPtr _ ts
      case iface => exact Writes.write _
  | .ptr v, hw, ht => by
      cases t <;> simp only [typed, reduceCtorEq] at ht
      case ptr e => exact writes_write e noTags v hw ht
  | .iface t' v, _, ht => by
      cases t <;> simp only [typed, reduceCtorEq, Bool.and_eq_true] at ht
      exact writes_write t' noTags v ht.1 ht.2

theorem writes_writeElems (e : Ty) (he : e.wellFormed = true) : ∀ xs : List Val, allTyped e xs = true →
    Writes (writeElems e xs) (encodeList (elemsItems e xs))
  | [], _ => Writes.nil
  | x :: xs, ht => by
      simp only [allTyped, Bool.and_eq_true] at ht
      rw [elemsItems, encodeList_append]
      exact (writes_write e noTags x he ht.1).comp (writes_writeElems e he xs ht.2)

theorem writes_writeFields : ∀ (fs : List (Ty × Tags)) (anyOptional : Bool),
    fieldsWellFormed anyOptional fs = true → ∀ (xs : List Val) (n : ℕ), fieldsTyped fs xs = true →
      Writes (writeFields fs xs n) (encodeList (fieldsItems fs xs n))
  | [], _, _, xs, n, _ => by
      cases xs <;> cases n <;> exact Writes.nil
  | (t, ts) :: fs, anyOptional, hw, [], n, _ => by
      cases n <;> exact Writes.nil
  | (t, ts) :: fs, anyOptional, hw, x :: xs, 0, _ => Writes.nil
  | (t, ts) :: fs, anyOptional, hw, x :: xs, n + 1, ht => by
      simp only [fieldsWellFormed, Bool.and_eq_true] at hw
      simp only [fieldsTyped, Bool.and_eq_true] at ht
      rw [fieldsItems, encodeList_append]
      exact (writes_write t ts x hw.1.1.1 ht.1).comp (writes_writeFields fs _ hw.2 xs n ht.2)
end

end GoQuai.Rlp
