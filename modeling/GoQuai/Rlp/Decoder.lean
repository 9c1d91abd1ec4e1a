import GoQuai.Rlp.Writer

/-! # The decoders

`makeDecoder` of `rlp/decode.go` and the decoders it returns, on the values of
`Value`, and `DecodeBytes` over them. Errors are `Error`s without the type and
field context `wrapStreamError` and `addErrorContext` add; `EOL`, the one a
caller acts on, passes through unchanged. -/

namespace GoQuai.Rlp

open GoQuai.BigEndian GoQuai.Rlp.Stream

/-- `decodeBool`: `Bool`, an integer of at most 8 bits that is 0 or 1. -/
def decodeBool (s : Stream) : Except Error (Bool × Stream) := do
  let (num, s) ← s.uint 8
  match num with
  | 0 => pure (false, s)
  | 1 => pure (true, s)
  | _ => throw .invalidBool

/-- `decodeBigInt`: a string without leading zero bytes, read into `uintbuf`
up to 32 bytes. -/
def decodeBigInt (s : Stream) : Except Error (ℕ × Stream) := do
  let ((kind, size), s) ← s.kindOf
  let (buffer, s) ← (match kind with
    | .list => throw .expectedStringOrByte
    | .byte b => pure ([b], { s with kind := none })
    | .string =>
        if size = 0 then pure ([], { s with kind := none })
        else if size ≤ 32 then do
          let (buffer, s) ← s.readFull size
          -- a single byte below `0x80` is its own encoding
          if size = 1 ∧ ∃ x ∈ buffer.head?, x < 128 then throw .canonSize else pure (buffer, s)
        else s.readFull size)
  if buffer.head? = some 0 then throw .canonInt else pure (ofBytes buffer, s)

/-- `decodeByteArray`: a string of exactly the array's length. -/
def decodeByteArray (len : ℕ) (s : Stream) : Except Error (List UInt8 × Stream) := do
  let ((kind, size), s) ← s.kindOf
  match kind with
  | .byte b =>
      if len = 0 then throw .stringTooLong
      else if len > 1 then throw .stringTooShort
      else pure ([b], { s with kind := none })
  | .string =>
      if len < size then throw .stringTooLong
      else if len > size then throw .stringTooShort
      else do
        let (slice, s) ← s.readFull len
        if size = 1 ∧ ∃ x ∈ slice.head?, x < 128 then throw .canonSize else pure (slice, s)
  | .list => throw .expectedStringOrByte

/-- `makeSimplePtrDecoder`: decode into a new element. -/
def makeSimplePtrDecoder (elemdec : Stream → Option (Except Error (Val × Stream))) (s : Stream) :
    Option (Except Error (Val × Stream)) :=
  (elemdec s).map (Except.map fun (v, s) => (.ptr v, s))

/-- `makeNilPtrDecoder`: an empty value of the tag's kind is a nil pointer. -/
def makeNilPtrDecoder (nilKind : Kind) (elemdec : Stream → Option (Except Error (Val × Stream)))
    (s : Stream) : Option (Except Error (Val × Stream)) :=
  match s.kindOf with
  | .error e => some (.error e)
  | .ok ((kind, size), s) =>
      if !kind.isByte ∧ size = 0 then
        if kind ≠ nilKind then some (.error .wrongEmptyKind)
        else some (.ok (.nil, { s with kind := none }))
      else makeSimplePtrDecoder elemdec s

mutual
/-- The decoder `makeDecoder` makes for `t` with the tags `ts`; `fuel` bounds
the element loops. -/
def decode : Ty → Tags → ℕ → Stream → Option (Except Error (Val × Stream))
  | .bigInt, _, _, s => some ((decodeBigInt s).map fun (i, s) => (.bigInt i, s))
  -- `makePtrDecoder`; a `*big.Int` is `decodeBigInt`'s whatever its tags
  | .ptr e, ts, fuel, s =>
      if e.isBigInt then some ((decodeBigInt s).map fun (i, s) => (.ptr (.bigInt i), s))
      else if ts.nilOK then makeNilPtrDecoder ts.nilKind (decode e noTags fuel) s
      else makeSimplePtrDecoder (decode e noTags fuel) s
  | .uint bits, _, _, s => some ((s.uint bits).map fun (n, s) => (.uint n, s))
  | .bool, _, _, s => some ((decodeBool s).map fun (b, s) => (.bool b, s))
  -- `decodeString` and `decodeByteSlice`
  | .string, _, _, s | .bytes, _, _, s => some (s.bytes.map fun (b, s) => (.bytes b, s))
  | .byteArray len, _, _, s => some ((decodeByteArray len s).map fun (b, s) => (.bytes b, s))
  -- `makeListDecoder`: a `tail` slice reads the rest of the enclosing list
  | .slice e, ts, fuel, s =>
      if ts.tail then
        (decodeSliceElems (decode e noTags fuel) fuel s).map (Except.map fun (xs, s) => (.list xs, s))
      else (decodeListSlice (decode e noTags fuel) fuel s).map (Except.map fun (xs, s) => (.list xs, s))
  | .array len e, _, fuel, s =>
      (decodeListArray len (decode e noTags fuel) s).map (Except.map fun (xs, s) => (.list xs, s))
  -- `makeStructDecoder`
  | .struct fs, _, fuel, s =>
      match s.list with
      | .error e => some (.error e)
      | .ok (_, s) => (decodeFields fs fuel s).map fun r =>
          r.bind fun (xs, s) => s.listEnd.map fun s => (.list xs, s)
  | .iface, _, fuel, s => (decodeInterface fuel s).map (Except.map fun (i, s) => (ofItem i, s))

/-- The field loop of `makeStructDecoder`: at `EOL` an optional field and
those after it are zeroed, any other is too few elements. -/
def decodeFields : List (Ty × Tags) → ℕ → Stream → Option (Except Error (List Val × Stream))
  | [], _, s => some (.ok ([], s))
  | (t, ts) :: fs, fuel, s =>
      match decode t ts fuel s with
      | none => none
      | some (.error e) =>
          if e = .eol then
            if ts.optional then some (.ok (zeroFields ((t, ts) :: fs), s)) else some (.error .tooFewElements)
          else some (.error e)
      | some (.ok (x, s₁)) => (decodeFields fs fuel s₁).map (Except.map fun (xs, s₂) => (x :: xs, s₂))
end

-- Generate the equation lemmas of these definitions once, here, rather than in
-- each of the proofs below that unfold them while they are elaborated in parallel.
section
attribute [local simp] decode
end

/-- `DecodeBytes` into a value of type `t`. -/
def decodeBytes (t : Ty) (b : List UInt8) : Option (Except Error Val) :=
  (decode t noTags (b.length + 1) (Stream.ofBytes b)).map decodeEnd

example : decodeBytes (.struct [(.uint 64, noTags), (.slice .bytes, noTags)])
    [0xC6, 0x82, 4, 0, 0xC2, 1, 0x80] = some (.ok (.list [.uint 1024, .list [.bytes [1], .bytes []]])) := by
  decide +kernel

/-! ## The tag of an encoded value -/

/-- What `Kind` reads at the start of an RLP value's encoding. -/
def Item.kind : Item → Kind × ℕ
  | .str b => if singleByte b then (.byte (b.headD 0), 0) else (.string, b.length)
  | .list xs => (.list, (encodeList xs).length)

theorem Item.encode_kind (i : Item) : ∃ p, i.encode = tag i.kind ++ p ∧ p.length = i.kind.2 := by
  cases i with
  | str b =>
      by_cases hs : singleByte b = true
      · obtain ⟨x, rfl⟩ : ∃ x, b = [x] := match b, hs with | [x], _ => ⟨x, rfl⟩
        exact ⟨[], by simp [Item.encode, Item.kind, hs, tag], by simp [Item.kind, hs]⟩
      · exact ⟨b, by simp [Item.encode, Item.kind, hs, tag], by simp [Item.kind, hs]⟩
  | list xs => exact ⟨encodeList xs, encode_list xs, rfl⟩

theorem Item.tagged_kind {i : Item} (h : i.encode.length < 2 ^ 64) : Tagged i.kind := by
  cases i with
  | str b =>
      by_cases hs : singleByte b = true
      · obtain ⟨x, rfl⟩ : ∃ x, b = [x] := match b, hs with | [x], _ => ⟨x, rfl⟩
        simp only [singleByte, decide_eq_true_eq] at hs
        simp only [Item.kind, singleByte, hs, decide_true, if_true, List.headD_cons, Tagged, and_true]
        exact (lt_0x80_iff x).mpr hs
      · simp only [Item.kind, hs, Bool.false_eq_true, if_false, Tagged]
        exact lt_of_le_of_lt (length_le_encode_str b) h
  | list xs =>
      simp only [Item.kind, Tagged]
      rw [encode_list, List.length_append] at h
      omega

/-- `Kind` reads the tag of an encoded value. -/
theorem kindOf_encode {s : Stream} {i : Item} (hk : s.kind = none) (hlen : i.encode.length < 2 ^ 64)
    (hroom : s.Room i.encode.length) (htake : s.input.take i.encode.length = i.encode) :
    s.kindOf = .ok (i.kind, s.cached (tag i.kind).length i.kind) := by
  obtain ⟨p, hp, hplen⟩ := i.encode_kind
  rw [hp, List.length_append] at hroom htake
  rw [hplen] at hroom
  exact kindOf_tag hk (Item.tagged_kind hlen) hroom (take_append_split htake).1

/-- Only an empty string or list has an empty non-byte kind. -/
theorem Item.kind_empty (i : Item) : (i.kind.1.isByte = false ∧ i.kind.2 = 0) ↔ i.isEmpty = true := by
  rcases i with ⟨_ | ⟨x, _ | ⟨y, b⟩⟩⟩ | ⟨_ | ⟨x, xs⟩⟩
  · simp [Item.kind, singleByte, Item.isEmpty, Kind.isByte]
  · by_cases hx : x ≤ 0x7F <;> simp [Item.kind, singleByte, hx, Item.isEmpty, Kind.isByte]
  · simp [Item.kind, singleByte, Item.isEmpty]
  · simp [Item.kind, Item.isEmpty, Kind.isByte, encodeList]
  · have := length_encode_pos x
    simp [Item.kind, Item.isEmpty, encodeList, List.ne_nil_of_length_pos this]

theorem decode_of_kindOf {s s₁ : Stream} {kn : Kind × ℕ} (h : s.kindOf = .ok (kn, s₁)) (fuel : ℕ) :
    ∀ (t : Ty) (ts : Tags), ts.tail = false → decode t ts fuel s₁ = decode t ts fuel s
  | .ptr e, ts, _ => by
      simp only [decode, makeSimplePtrDecoder, makeNilPtrDecoder, decodeBigInt, kindOf_of_kindOf h,
        decode_of_kindOf h fuel e noTags rfl]
  | .slice e, ts, htail => by simp only [decode, htail, Bool.false_eq_true, if_false, decodeListSlice, list_of_kindOf_eq h]
  | .iface, _, _ => by cases fuel <;> simp only [decode, decodeInterface, kindOf_of_kindOf h]
  | .uint _, _, _ | .bool, _, _ | .string, _, _ | .bytes, _, _ | .byteArray _, _, _ | .bigInt, _, _
  | .array _ _, _, _ | .struct _, _, _ => by
      simp only [decode, Stream.uint, decodeBool, Stream.bytes, decodeByteArray, decodeBigInt,
        decodeListArray, list_of_kindOf_eq h, kindOf_of_kindOf h]

/-- `decodeBool` reads the encoding of `true` or of `false`. -/
theorem decodeBool_eq_ok_iff {s s' : Stream} {b : Bool} :
    decodeBool s = .ok (b, s') ↔ s.bytes = .ok ((if b then [1] else []), s') := by
  have hbits : ∀ n, n = 0 ∨ n = 1 → (toBytes n).length ≤ 8 / 8 := by
    rintro n (rfl | rfl) <;> simp [toBytes_one]
  unfold decodeBool
  rw [except_bind_eq_ok]
  constructor
  · rintro ⟨⟨num, s₂⟩, hu, h⟩
    match num, h with
    | 0, h =>
        simp only [except_pure, Except.ok.injEq, Prod.mk.injEq] at h
        obtain ⟨rfl, rfl⟩ := h
        simpa using ((uint_eq_ok_iff le_rfl).mp hu).2
    | 1, h =>
        simp only [except_pure, Except.ok.injEq, Prod.mk.injEq] at h
        obtain ⟨rfl, rfl⟩ := h
        simpa [toBytes_one] using ((uint_eq_ok_iff le_rfl).mp hu).2
  · intro h
    cases b
    · exact ⟨(0, s'), (uint_eq_ok_iff le_rfl).mpr ⟨hbits 0 (.inl rfl), by simpa using h⟩, rfl⟩
    · exact ⟨(1, s'), (uint_eq_ok_iff le_rfl).mpr ⟨hbits 1 (.inr rfl), by simpa [toBytes_one] using h⟩, rfl⟩

/-- The last step of `decodeBigInt`: the buffer, without a leading zero, is the number's bytes. -/
theorem bind_canonInt_eq_ok_iff {x : Except Error (List UInt8 × Stream)} {s' : Stream} {i : ℕ} :
    (x >>= fun p => if p.1.head? = some 0 then throw Error.canonInt else pure (BigEndian.ofBytes p.1, p.2)) =
      Except.ok (i, s') ↔ x = .ok (toBytes i, s') := by
  rw [except_bind_eq_ok]
  constructor
  · rintro ⟨⟨buffer, s₂⟩, hx, h⟩
    dsimp only at h
    split_ifs at h with h0
    simp only [except_pure, Except.ok.injEq, Prod.mk.injEq] at h
    obtain ⟨rfl, rfl⟩ := h
    rwa [toBytes_ofBytes fun b hb hb0 => h0 (hb0 ▸ hb)]
  · intro hx
    refine ⟨_, hx, ?_⟩
    dsimp only
    rw [if_neg (show ¬ (toBytes i).head? = some 0 from fun h0 => head_toBytes_ne_zero i 0 h0 rfl),
      ofBytes_toBytes]
    rfl

/-- `decodeBigInt` reads the shortest bytes of a number, as `Bytes` reads them. -/
theorem decodeBigInt_eq_ok_iff {s s' : Stream} {i : ℕ} :
    decodeBigInt s = .ok (i, s') ↔ s.bytes = .ok (toBytes i, s') := by
  unfold decodeBigInt Stream.bytes
  rcases hkind : s.kindOf with e | ⟨⟨k, size⟩, s₁⟩
  · simp
  simp only [except_ok_bind]
  refine bind_canonInt_eq_ok_iff.trans ?_
  cases k with
  | byte x => rfl
  | list => rfl
  | string =>
      -- the size classes of the source: empty, within `uintbuf`, longer
      dsimp only
      split_ifs with h0 h32
      · subst h0
        simp [readFull_zero]
      · rfl
      · rcases s₁.readFull size with e | ⟨b, s₂⟩
        · rfl
        · simp only [except_ok_bind, show size ≠ 1 by omega, false_and, if_false]
          rfl

/-- `decodeByteArray` reads a string of the array's length, as `Bytes` reads it. -/
theorem decodeByteArray_eq_ok_iff {s s' : Stream} {len : ℕ} {b : List UInt8} :
    decodeByteArray len s = .ok (b, s') ↔ b.length = len ∧ s.bytes = .ok (b, s') := by
  unfold decodeByteArray Stream.bytes
  rcases hkind : s.kindOf with e | ⟨⟨k, size⟩, s₁⟩
  · simp
  simp only [except_ok_bind]
  cases k with
  | byte x =>
      -- a single byte fills an array of one
      simp only [except_pure, Except.ok.injEq, Prod.mk.injEq]
      split_ifs with h0 h1
      · simp only [false_iff, not_and]
        rintro h rfl
        simp at h
        omega
      · simp only [false_iff, not_and]
        rintro h rfl
        simp at h
        omega
      · simp only [Except.ok.injEq, Prod.mk.injEq]
        constructor
        · rintro ⟨rfl, rfl⟩
          exact ⟨by simp; omega, rfl, rfl⟩
        · rintro ⟨-, h⟩
          exact h
  | list => simp
  | string =>
      dsimp only
      have hsize : ∀ c s₂, s₁.readFull size = .ok (c, s₂) → c.length = size := fun c s₂ hr => by
        obtain ⟨hroom, rfl, -⟩ := readFull_eq_ok_iff.mp hr
        simpa using hroom.2
      by_cases hlen : len = size
      · subst hlen
        simp only [lt_irrefl, if_false]
        rcases hr : s₁.readFull len with e | ⟨c, s₂⟩
        · simp
        · have hc := hsize c s₂ hr
          simp only [except_ok_bind]
          split_ifs
          · simp
          · simp only [except_pure, Except.ok.injEq, Prod.mk.injEq]
            constructor
            · rintro ⟨rfl, rfl⟩
              exact ⟨hc, rfl, rfl⟩
            · exact fun h => h.2
      · constructor
        · intro h
          split_ifs at h
          omega
        · rintro ⟨hb, h⟩
          obtain ⟨⟨c, s₂⟩, hr, h⟩ := except_bind_eq_ok.mp h
          split_ifs at h
          simp only [except_pure, Except.ok.injEq, Prod.mk.injEq] at h
          obtain ⟨rfl, rfl⟩ := h
          exact absurd (hb.symm.trans (hsize _ _ hr)) hlen
/-- At the end of a list every decoder but a `tail` slice's reports `EOL`. -/
theorem decode_eol {s : Stream} {fuel : ℕ} (hk : s.kind = none) (h0 : s.stack.head? = some 0) (hfuel : 0 < fuel) :
    ∀ (t : Ty) (ts : Tags), ts.tail = false → decode t ts fuel s = some (.error .eol)
  | .ptr e, ts, _ => by
      have ih := decode_eol hk h0 hfuel e noTags rfl
      simp only [decode, makeSimplePtrDecoder, makeNilPtrDecoder, decodeBigInt, kindOf_eol hk h0, ih,
        except_error_bind]
      split_ifs <;> rfl
  | .slice e, ts, htail => by
      simp only [decode, htail, Bool.false_eq_true, if_false, decodeListSlice, Stream.list, kindOf_eol hk h0,
        except_error_bind]
      rfl
  | .iface, _, _ => by
      obtain ⟨f, rfl⟩ : ∃ f, fuel = f + 1 := ⟨fuel - 1, by omega⟩
      simp only [decode, decodeInterface_eol hk h0]
      rfl
  | .uint _, _, _ | .bool, _, _ | .string, _, _ | .bytes, _, _ | .byteArray _, _, _ | .bigInt, _, _
  | .array _ _, _, _ | .struct _, _, _ => by
      simp only [decode, Stream.uint, decodeBool, Stream.bytes, decodeByteArray, decodeBigInt,
        decodeListArray, Stream.list, kindOf_eol hk h0, except_error_bind, Option.map_some, Except.map]

/-! ## Reading back what was written -/

theorem encodeList_elemsItems (e : Ty) (xs : List Val) :
    encodeList (elemsItems e xs) = (xs.map fun x => encodeList (toItems e noTags x)).flatten := by
  induction xs with
  | nil => rfl
  | cons x xs ih => simp [elemsItems, encodeList_append, ih]

/-- An unsigned integer type has whole bytes: its values are the numbers of at
most `bits / 8` bytes. -/
theorem uint_fits {bits : ℕ} (hw : (Ty.uint bits).wellFormed = true) :
    8 ≤ bits ∧ ∀ n, (toBytes n).length ≤ bits / 8 ↔ n < 2 ^ bits := by
  simp only [Ty.wellFormed, Bool.or_eq_true, beq_iff_eq] at hw
  rcases hw with ((rfl | rfl) | rfl) | rfl <;>
    exact ⟨by norm_num, fun n => by rw [length_toBytes_le_iff]; norm_num⟩

/-- A decoder that reads what `Bytes` reads reads back a byte string. -/
theorem readsBack_of_bytes {α : Type} {dec : Stream → Option (Except Error (α × Stream))} {x : α}
    {b : List UInt8} (hb : (Item.str b).encode.length < 2 ^ 64)
    (hdec : ∀ s s' : Stream, s.bytes = .ok (b, s') → dec s = some (.ok (x, s'))) :
    ReadsBack dec x (Item.str b).encode :=
  fun s hk _ hroom htake => hdec s _ (bytes_encode hk (lt_of_le_of_lt (length_le_encode_str b) hb) hroom htake)

/-- A decoder that starts with `List` reads back a list once `Kind` has read its header. -/
theorem readsBack_list {α : Type} {dec : Stream → Option (Except Error (α × Stream))} {x : α}
    {items : List Item} (hstable : ∀ (s s₁ : Stream) (kn : Kind × ℕ), s.kindOf = .ok (kn, s₁) → dec s₁ = dec s)
    (hlen : (Item.list items).encode.length < 2 ^ 64)
    (hdec : ∀ s : Stream, s.kind = some (.list, (encodeList items).length) → s.Bounded →
      s.Room (encodeList items).length → s.input.take (encodeList items).length = encodeList items →
      dec s = some (.ok (x, s.advance (encodeList items).length))) :
    ReadsBack dec x (Item.list items).encode := by
  intro s hk hb hroom htake
  have hkind : s.kindOf = .ok ((.list, (encodeList items).length),
      s.cached (tag (.list, (encodeList items).length)).length (.list, (encodeList items).length)) :=
    kindOf_encode hk hlen hroom htake
  rw [encode_list, List.length_append] at hroom htake
  rw [← hstable s _ _ hkind, hdec (s.cached _ (.list, (encodeList items).length)) rfl (hb.advance _)
    (Room.cached.mpr hroom.advance)
    (by simpa [Stream.cached] using (take_append_split htake).2), cached_advance, encode_list,
    List.length_append]

theorem length_payload_lt (items : List Item) : (encodeList items).length < (Item.list items).encode.length := by
  have := length_tag_pos (.list, (encodeList items).length)
  rw [encode_list, List.length_append]
  omega

theorem typed_of_mem {e : Ty} {x : Val} : ∀ {xs : List Val}, allTyped e xs = true → x ∈ xs → typed e x = true
  | [], _, hx => by simp at hx
  | y :: xs, h, hx => by
      simp only [allTyped, Bool.and_eq_true] at h
      rcases List.mem_cons.mp hx with rfl | hx
      · exact h.1
      · exact typed_of_mem h.2 hx

theorem length_encodeList_pos {t : Ty} {ts : Tags} {v : Val} (htail : ts.tail = false) (ht : typed t v = true) :
    0 < (encodeList (toItems t ts v)).length := by
  obtain ⟨i, hi⟩ := toItems_single v t ts htail ht
  rw [hi, encodeList_singleton]
  exact length_encode_pos i

mutual
/-- Every decoder reads back the encoding of a value it can restore. -/
theorem readsBack_decode (fuel : ℕ) (t : Ty) (ts : Tags) : ∀ v : Val, t.wellFormed = true →
    tagsWellFormed t ts false = true → typed t v = true → restorable t ts v = true →
    (encodeList (toItems t ts v)).length < fuel → (encodeList (toItems t ts v)).length < 2 ^ 64 →
    ReadsBack (decode t ts fuel) v (encodeList (toItems t ts v))
  | .uint n, hw, _, ht, _, _, hlen => by
      cases t <;> simp only [typed, reduceCtorEq] at ht
      rename_i bits
      obtain ⟨h8, hfit⟩ := uint_fits hw
      replace hfit := (hfit n).mpr (by simpa using ht)
      simp only [toItems, encodeList_singleton] at hlen ⊢
      exact readsBack_of_bytes hlen fun s s' h => by
        simp only [decode, (uint_eq_ok_iff h8).mpr ⟨hfit, h⟩]
        rfl
  | .bool b, _, _, ht, _, _, hlen => by
      cases t <;> simp only [typed, reduceCtorEq] at ht
      simp only [toItems, encodeList_singleton] at hlen ⊢
      exact readsBack_of_bytes hlen fun s s' h => by
        simp only [decode, decodeBool_eq_ok_iff.mpr h]
        rfl
  | .bytes b, _, _, ht, _, _, hlen => by
      cases t <;> simp only [typed, reduceCtorEq, beq_iff_eq] at ht <;>
        simp only [toItems, encodeList_singleton] at hlen ⊢
      · exact readsBack_of_bytes hlen fun s s' h => by simp only [decode, h]; rfl
      · exact readsBack_of_bytes hlen fun s s' h => by simp only [decode, h]; rfl
      · exact readsBack_of_bytes hlen fun s s' h => by
          simp only [decode, decodeByteArray_eq_ok_iff.mpr ⟨ht, h⟩]
          rfl
  | .bigInt i, _, _, ht, _, _, hlen => by
      cases t <;> simp only [typed, reduceCtorEq] at ht
      simp only [toItems, encodeList_singleton] at hlen ⊢
      exact readsBack_of_bytes hlen fun s s' h => by
        simp only [decode, decodeBigInt_eq_ok_iff.mpr h]
        rfl
  | .nil, _, htags, ht, hr, _, hlen => by
      cases t <;> simp only [typed, reduceCtorEq] at ht
      case iface => simp [restorable, isItemVal] at hr
      case ptr e =>
        -- a `nil`-tagged pointer: the empty value of the tag's kind
        simp only [restorable, Bool.and_eq_true, Bool.not_eq_true'] at hr
        intro s hk hb hroom htake
        simp only [decode, hr.1, hr.2, Bool.false_eq_true, if_false, if_true, makeNilPtrDecoder]
        rcases nilKind_of_tagsWellFormed htags hr.2 with hkind | hkind <;>
          simp only [toItems, hr.1, Tags.nilKindOf, hr.2, if_true, hkind, Bool.false_or, encodeList_singleton,
            beq_self_eq_true] at hlen hroom htake ⊢
        · rw [kindOf_encode hk hlen hroom htake]
          rfl
        · rw [kindOf_encode hk hlen hroom htake]
          rfl
  | .ptr v, hw, htags, ht, hr, hfuel, hlen => by
      cases t <;> simp only [typed, reduceCtorEq] at ht
      case ptr e =>
      clear htags
      simp only [Ty.wellFormed] at hw
      simp only [restorable, Bool.and_eq_true, Bool.not_eq_true'] at hr
      simp only [toItems] at hfuel hlen ⊢
      intro s hk hb hroom htake
      have hv := readsBack_decode fuel e noTags v hw (tagsWellFormed_noTags e false) ht hr.1 hfuel hlen s hk hb
        hroom htake
      simp only [decode]
      by_cases hbig : e.isBigInt = true
      · -- `*big.Int`: `decodeBigInt`, whatever the tags
        cases e <;> simp only [Ty.isBigInt, Bool.false_eq_true] at hbig
        cases v <;> simp only [typed, reduceCtorEq] at ht
        simp only [toItems, encodeList_singleton] at hlen hroom htake ⊢
        simp only [Ty.isBigInt, if_true, decodeBigInt_eq_ok_iff.mpr
          (bytes_encode hk (lt_of_le_of_lt (length_le_encode_str _) hlen) hroom htake)]
        rfl
      · simp only [hbig, Bool.false_eq_true, if_false]
        split_ifs with hnil
        · -- `makeNilPtrDecoder`: the value's encoding is not an empty one
          obtain ⟨i, hi⟩ := toItems_single v e noTags rfl ht
          have hne : i.isEmpty = false := by simpa [hnil, hbig, hi] using hr.2
          rw [hi, encodeList_singleton] at hlen hroom htake hv ⊢
          have hkind := kindOf_encode hk hlen hroom htake
          rcases hik : i.kind with ⟨k, n⟩
          rw [hik] at hkind
          have hnotempty : ¬ ((!k.isByte) = true ∧ n = 0) := by
            rw [Bool.not_eq_true']
            intro h
            simp [i.kind_empty.mp (by rw [hik]; exact h)] at hne
          simp only [makeNilPtrDecoder, hkind, if_neg hnotempty, makeSimplePtrDecoder,
            decode_of_kindOf hkind fuel e noTags rfl, hv]
          rfl
        · simp only [makeSimplePtrDecoder, hv]
          rfl
  | .list xs, hw, htags, ht, hr, hfuel, hlen => by
      have htail := tail_eq_false_of_tagsWellFormed htags
      have hstable : ∀ (s s₁ : Stream) (kn : Kind × ℕ), s.kindOf = .ok (kn, s₁) →
          decode t ts fuel s₁ = decode t ts fuel s := fun s s₁ kn h => decode_of_kindOf h fuel t ts htail
      cases t <;> simp only [typed, reduceCtorEq, Bool.and_eq_true, beq_iff_eq] at ht
      case slice e =>
        simp only [Ty.wellFormed, Bool.and_eq_true] at hw
        simp only [restorable] at hr
        simp only [toItems, htail, Bool.false_eq_true, if_false, encodeList_singleton] at hfuel hlen ⊢
        have hpay := length_payload_lt (elemsItems e xs)
        have helem := readsBack_decodeElems fuel e xs hw.2 ht hr (by omega) (by omega)
        refine readsBack_list hstable hlen fun s hk hb hroom htake => ?_
        rw [encodeList_elemsItems] at hk hroom htake hpay ⊢
        simp only [decode, htail, Bool.false_eq_true, if_false]
        rw [decodeListSlice_encode helem (fun s hk h0 => decode_eol hk h0 (by omega) e noTags rfl)
          (fun x hx => length_encodeList_pos rfl (typed_of_mem ht hx)) (by omega) hk hb (by omega) hroom htake]
        rfl
      case array len e =>
        obtain ⟨rfl, ht⟩ := ht
        simp only [Ty.wellFormed, Bool.and_eq_true] at hw
        simp only [restorable] at hr
        simp only [toItems, htail, Bool.false_eq_true, if_false, encodeList_singleton] at hfuel hlen ⊢
        have hpay := length_payload_lt (elemsItems e xs)
        have helem := readsBack_decodeElems fuel e xs hw.2 ht hr (by omega) (by omega)
        refine readsBack_list hstable hlen fun s hk hb hroom htake => ?_
        rw [encodeList_elemsItems] at hk hroom htake hpay ⊢
        simp only [decode]
        rw [decodeListArray_encode helem hk hb (by omega) hroom htake]
        rfl
      case struct fs =>
        simp only [Ty.wellFormed] at hw
        simp only [restorable, Bool.and_eq_true] at hr
        simp only [toItems, encodeList_singleton] at hfuel hlen ⊢
        have hpay := length_payload_lt (fieldsItems fs xs (keptFields fs xs))
        obtain ⟨-, hzero, hfirst⟩ := keptFields_spec fs xs (fieldsTyped_length ht)
        -- the first field left out is optional or a `tail` slice
        have hdrop : ∀ p ∈ fs[keptFields fs xs]?, p.2.optional = true ∨ p.2.tail = true ∧ ∃ e, p.1 = .slice e := by
          intro p hp
          have hlt : keptFields fs xs < fs.length := (List.getElem?_eq_some_iff.mp hp).1
          rcases optional_or_tail hw _ (hfirst hlt) p hp with hopt | htl
          · exact .inl hopt
          · obtain ⟨-, last, htw⟩ := tagsWellFormed_of_mem hw p (List.mem_of_getElem? hp)
            rcases tail_kind htw htl with he | hbytes
            · exact .inr ⟨htl, he⟩
            · obtain ⟨t', ts'⟩ := p
              simp only at hbytes htl
              subst hbytes
              have := hr.2
              rw [Option.mem_def.mp hp] at this
              simp [htl] at this
        refine readsBack_list hstable hlen fun s hk hb hroom htake => ?_
        have hfields := readsBack_decodeFields fuel fs xs false (keptFields fs xs) hw ht hr.1 hzero hdrop
          (by omega) (by omega) (s.enter _) rfl (hb.enter (by omega)) rfl hroom.enter
          (by simpa [Stream.enter] using htake)
        simp only [decode, list_of_kindOf (kindOf_cached hk), hfields, Option.map_some, Except.bind,
          listEnd_enter_advance hb hroom.1.1, Except.map]
  | .iface t' v, _, _, ht, hr, hfuel, hlen => by
      cases t <;> simp only [typed, reduceCtorEq] at ht
      obtain ⟨i, hi⟩ := exists_ofItem _ (by simpa [restorable] using hr)
      rw [hi, toItems_ofItem, encodeList_singleton] at hfuel hlen ⊢
      intro s hk hb hroom htake
      simp only [decode, decodeInterface_encode fuel i s hfuel hlen hk hb hroom htake]
      rfl

theorem readsBack_decodeElems (fuel : ℕ) (e : Ty) : ∀ xs : List Val, e.wellFormed = true →
    allTyped e xs = true → allRestorable e xs = true →
    (encodeList (elemsItems e xs)).length < fuel → (encodeList (elemsItems e xs)).length < 2 ^ 64 →
    ∀ x ∈ xs, ReadsBack (decode e noTags fuel) x (encodeList (toItems e noTags x))
  | [], _, _, _, _, _ => by simp
  | x :: xs, hw, ht, hr, hfuel, hlen => by
      simp only [allTyped, allRestorable, Bool.and_eq_true] at ht hr
      rw [elemsItems, encodeList_append, List.length_append] at hfuel hlen
      exact List.forall_mem_cons.mpr
        ⟨readsBack_decode fuel e noTags x hw (tagsWellFormed_noTags e false) ht.1 hr.1 (by omega) (by omega),
          readsBack_decodeElems fuel e xs hw ht.2 hr.2 (by omega) (by omega)⟩

theorem readsBack_decodeFields (fuel : ℕ) : ∀ (fs : List (Ty × Tags)) (xs : List Val) (a : Bool) (k : ℕ),
    fieldsWellFormed a fs = true → fieldsTyped fs xs = true → fieldsRestorable fs xs = true →
    fieldsZero (fs.drop k) (xs.drop k) = true →
    (∀ p ∈ fs[k]?, p.2.optional = true ∨ p.2.tail = true ∧ ∃ e, p.1 = .slice e) →
    (encodeList (fieldsItems fs xs k)).length < fuel → (encodeList (fieldsItems fs xs k)).length < 2 ^ 64 →
    ∀ s : Stream, s.kind = none → s.Bounded → s.stack.head? = some (encodeList (fieldsItems fs xs k)).length →
      s.Room (encodeList (fieldsItems fs xs k)).length →
      s.input.take (encodeList (fieldsItems fs xs k)).length = encodeList (fieldsItems fs xs k) →
      decodeFields fs fuel s = some (.ok (xs, s.advance (encodeList (fieldsItems fs xs k)).length))
  | [], [], _, _, _, _, _, _, _, _, _, s, hk, _, _, _, _ => by
      simp [decodeFields, fieldsItems, encodeList, advance_zero hk]
  | [], _ :: _, _, _, _, ht, _, _, _, _, _, _, _, _, _, _, _
  | _ :: _, [], _, _, _, ht, _, _, _, _, _, _, _, _, _, _, _ => by simp [fieldsTyped] at ht
  | (t, ts) :: fs, x :: xs, _, 0, hw, ht, _, hz, hdrop, hfuel, _, s, hk, _, hhead, _, _ => by
      -- no field is written from here on: the decoder meets `EOL`
      have h0 : fieldsItems ((t, ts) :: fs) (x :: xs) 0 = [] := rfl
      simp only [h0, encodeList, List.length_nil] at hfuel hhead ⊢
      rw [advance_zero hk, fieldsZero_eq _ _ ht hz, zeroFields]
      obtain ⟨f, rfl⟩ : ∃ f, fuel = f + 1 := ⟨fuel - 1, by omega⟩
      rcases hdrop (t, ts) rfl with hopt | ⟨htl, e, rfl⟩
      · -- an optional field: it and every field after it are zero
        dsimp only at hopt
        simp only [decodeFields, decode_eol hk hhead hfuel t ts (tail_eq_false_of_optional hw hopt), hopt,
          if_true]
        rfl
      · -- a `tail` slice, with no elements
        dsimp only at htl
        obtain ⟨rfl, -⟩ := tail_last hw htl
        simp only [decodeFields, decode, htl, if_true, decodeSliceElems_eol (decode_eol hk hhead hfuel e noTags rfl)]
        rfl
  | (t, ts) :: fs, x :: xs, a, k + 1, hw, ht, hr, hz, hdrop, hfuel, hlen, s, hk, hb, hhead, hroom, htake => by
      have hcons : fieldsItems ((t, ts) :: fs) (x :: xs) (k + 1) = toItems t ts x ++ fieldsItems fs xs k := rfl
      rw [hcons, encodeList_append] at hfuel hlen hhead hroom htake ⊢
      rw [List.length_append] at hfuel hlen hhead hroom htake ⊢
      have hw' := hw
      simp only [fieldsWellFormed, Bool.and_eq_true] at hw'
      simp only [fieldsTyped, Bool.and_eq_true] at ht
      simp only [fieldsRestorable, Bool.and_eq_true] at hr
      obtain ⟨hfirst, hrest⟩ := take_append_split htake
      cases htail : ts.tail
      · -- a field of its own: its value, then the fields after it
        have hx := readsBack_decode fuel t ts x hw'.1.1.1 (tagsWellFormed_false hw'.1.1.2 htail) ht.1 hr.1
          (by omega) (by omega) s hk hb (hroom.mono (Nat.le_add_right _ _)) hfirst
        have hxs := readsBack_decodeFields fuel fs xs _ k hw'.2 ht.2 hr.2 hz (by simpa using hdrop) (by omega)
          (by omega) (s.advance _) rfl (hb.advance _) (by rw [head_advance hhead, Nat.add_sub_cancel_left])
          hroom.advance (by simpa using hrest)
        simp only [decodeFields, hx, hxs, Option.map_some, Except.map, advance_advance]
      · -- the `tail`: what is left of the list
        obtain ⟨rfl, hkind⟩ := tail_last hw htail
        obtain rfl : xs = [] := List.length_eq_zero_iff.mp (fieldsTyped_length ht.2)
        have hnil : encodeList (fieldsItems [] [] k) = [] := by cases k <;> rfl
        simp only [hnil, List.length_nil, Nat.add_zero, List.append_nil] at hfuel hlen hhead hroom htake ⊢
        rcases hkind with ⟨e, rfl⟩ | rfl <;> cases x <;> simp only [typed, reduceCtorEq, false_and] at ht
        · -- a slice: its elements up to the end of the list
          rename_i ys
          simp only [Ty.wellFormed, Bool.and_eq_true] at hw'
          simp only [toItems, htail, if_true, encodeList_elemsItems] at hfuel hlen hhead hroom htake ⊢
          have helem := readsBack_decodeElems fuel e ys hw'.1.1.1.2 ht.1 hr.1
            (by rwa [encodeList_elemsItems]) (by rwa [encodeList_elemsItems])
          have hys := decodeSliceElems_encode helem
            (fun s hk h0 => decode_eol hk h0 (by omega) e noTags rfl)
            (fun y hy => length_encodeList_pos rfl (typed_of_mem ht.1 hy)) fuel s hfuel hk hb hhead hroom htake
          simp only [decodeFields, decode, htail, if_true, hys, Option.map_some, Except.map]
        · -- a byte slice: one string
          rename_i b
          simp only [toItems, encodeList_singleton] at hfuel hlen hhead hroom htake ⊢
          simp only [decodeFields, decode, bytes_encode hk (lt_of_le_of_lt (length_le_encode_str b) hlen) hroom htake,
            Except.map, Option.map_some]
end

/-! ## Reading only encodings -/

/-- A list header that `Kind` read, then a payload of the announced size: the
list's encoding. -/
theorem list_sound {s s₁ s' : Stream} {P : ℕ} {items : List Item} (hk : s.kind = none) (hb : s.Bounded)
    (hlen : s.input.length < 2 ^ 64) (hkind : s.kindOf = .ok ((.list, P), s₁))
    (hpre : encodeList items <+: s₁.input) (hP : (encodeList items).length = P) (hs' : s₁.consume P = s') :
    (Item.list items).encode <+: s.input ∧ s.consume (Item.list items).encode.length = s' := by
  subst hP
  obtain ⟨-, hroom, htake, rfl⟩ := kindOf_sound hk hkind
  rw [consume_cached] at hs'
  rw [encode_list]
  exact consume_append hb hlen (List.prefix_iff_eq_take.mpr htake.symm)
    (advance_eq_consume hb hroom.1.1).symm (by simpa [Stream.cached] using hpre) hs'

/-- A decoder that starts with `List` accepts only a list: a header, and the
content it reads to the end of the list. -/
theorem readsOnly_list {α : Type} {dec : Stream → Option (Except Error (α × Stream))} {Q : α → Prop}
    {enc : α → List UInt8}
    (hstable : ∀ (s s₁ : Stream) (kn : Kind × ℕ), s.kindOf = .ok (kn, s₁) → dec s₁ = dec s)
    (hlist : ∀ (s : Stream) (x : α) (s' : Stream), dec s = some (.ok (x, s')) → ∃ P s₂, s.list = .ok (P, s₂))
    (hdec : ∀ (s : Stream) (x : α) (s' : Stream) (P : ℕ), s.kind = some (.list, P) → s.Bounded → P < 2 ^ 64 →
      s.input.length < 2 ^ 64 → dec s = some (.ok (x, s')) →
      Q x ∧ ∃ items, enc x = (Item.list items).encode ∧ encodeList items <+: s.input ∧
        (encodeList items).length = P ∧ s.consume P = s') :
    ReadsOnly dec Q enc := by
  intro s x s' hk hb hlen h
  obtain ⟨P, s₂, hl⟩ := hlist s x s' h
  obtain ⟨s₁, hkind, -⟩ := kindOf_of_list hl
  have hk₁ := kindOf_kind hkind
  obtain ⟨htag, -, -, rfl⟩ := kindOf_sound hk hkind
  rw [← hstable s _ _ hkind] at h
  obtain ⟨hq, items, henc, hpre, hP, hs'⟩ := hdec _ x s' P hk₁ (hb.advance _) htag
    (by simp [Stream.cached]; omega) h
  rw [henc]
  exact ⟨hq, list_sound hk hb hlen hkind hpre hP hs'⟩

mutual
/-- What a decoder accepts is the encoding of a value of its type, when no
struct in the type has optional fields. -/
theorem readsOnly_decode (fuel : ℕ) : ∀ (t : Ty) (ts : Tags) (last : Bool), t.wellFormed = true →
    t.noOptional = true → tagsWellFormed t ts last = true →
    ReadsOnly (decode t ts fuel) (fun v => typed t v = true) (fun v => encodeList (toItems t ts v))
  | .uint bits, _, _, hw, _, _ => fun s v s' hk hb _ h => by
      obtain ⟨h8, hfit⟩ := uint_fits hw
      simp only [decode, Option.some.injEq, except_map_eq_ok] at h
      obtain ⟨n, hu, rfl⟩ := h
      obtain ⟨hn, hbytes⟩ := (uint_eq_ok_iff h8).mp hu
      simp only [typed, toItems, encodeList_singleton, decide_eq_true_eq]
      exact ⟨(hfit n).mp hn, bytes_prefix hk hb hbytes⟩
  | .bool, _, _, _, _, _ => fun s v s' hk hb _ h => by
      simp only [decode, Option.some.injEq, except_map_eq_ok] at h
      obtain ⟨b, hd, rfl⟩ := h
      simp only [typed, toItems, encodeList_singleton, true_and]
      exact bytes_prefix hk hb (decodeBool_eq_ok_iff.mp hd)
  | .string, _, _, _, _, _ | .bytes, _, _, _, _, _ => fun s v s' hk hb _ h => by
      simp only [decode, Option.some.injEq, except_map_eq_ok] at h
      obtain ⟨b, hd, rfl⟩ := h
      simp only [typed, toItems, encodeList_singleton, true_and]
      exact bytes_prefix hk hb hd
  | .byteArray len, _, _, _, _, _ => fun s v s' hk hb _ h => by
      simp only [decode, Option.some.injEq, except_map_eq_ok] at h
      obtain ⟨b, hd, rfl⟩ := h
      obtain ⟨hlen, hbytes⟩ := decodeByteArray_eq_ok_iff.mp hd
      simp only [typed, toItems, encodeList_singleton, beq_iff_eq]
      exact ⟨hlen, bytes_prefix hk hb hbytes⟩
  | .bigInt, _, _, _, _, _ => fun s v s' hk hb _ h => by
      simp only [decode, Option.some.injEq, except_map_eq_ok] at h
      obtain ⟨i, hd, rfl⟩ := h
      simp only [typed, toItems, encodeList_singleton, true_and]
      exact bytes_prefix hk hb (decodeBigInt_eq_ok_iff.mp hd)
  | .iface, _, _, _, _, _ => fun s v s' hk hb hlen h => by
      simp only [decode, option_map_eq_ok] at h
      obtain ⟨i, hd, rfl⟩ := h
      simp only [toItems_ofItem, encodeList_singleton]
      exact ⟨typed_ofItem i, decodeInterface_sound fuel s i s' hk hb hlen hd⟩
  | .ptr e, ts, _, hw, hno, htags => fun s v s' hk hb hlen h => by
      simp only [Ty.wellFormed] at hw
      simp only [Ty.noOptional] at hno
      -- a pointer to a value the element's decoder accepts
      have hsimple : ∀ s₁ : Stream, decode e noTags fuel s₁ = decode e noTags fuel s →
          makeSimplePtrDecoder (decode e noTags fuel) s₁ = some (.ok (v, s')) →
          typed (.ptr e) v = true ∧ encodeList (toItems (.ptr e) ts v) <+: s.input ∧
            s.consume (encodeList (toItems (.ptr e) ts v)).length = s' := by
        intro s₁ hs₁ h
        rw [makeSimplePtrDecoder, hs₁, option_map_eq_ok] at h
        obtain ⟨v', hd, rfl⟩ := h
        exact readsOnly_decode fuel e noTags false hw hno (tagsWellFormed_noTags e false) s v' s' hk hb hlen hd
      simp only [decode] at h
      split_ifs at h with hbig hnil
      · -- `*big.Int`, whatever the tags
        obtain rfl : e = .bigInt := match e, hbig with | .bigInt, _ => rfl
        obtain ⟨i, hd, rfl⟩ := (@except_map_eq_ok _ _ (fun i => Val.ptr (.bigInt i)) _ _ _).mp (Option.some.inj h)
        simp only [typed, toItems, encodeList_singleton, true_and]
        exact bytes_prefix hk hb (decodeBigInt_eq_ok_iff.mp hd)
      · -- `makeNilPtrDecoder`
        rcases hkind : s.kindOf with err | ⟨⟨k, n⟩, s₁⟩
        · simp [makeNilPtrDecoder, hkind] at h
        simp only [makeNilPtrDecoder, hkind] at h
        split_ifs at h with hempty hne
        · simp at h
        · -- an empty value of the tag's kind is a nil pointer
          simp only [Option.some.injEq, Except.ok.injEq, Prod.mk.injEq] at h
          obtain ⟨rfl, rfl⟩ := h
          obtain ⟨-, rfl⟩ := hempty
          obtain rfl : k = ts.nilKind := not_not.mp hne
          obtain ⟨-, hroom, htake, rfl⟩ := kindOf_sound hk hkind
          have henc : encodeList (toItems (.ptr e) ts .nil) = tag (ts.nilKind, 0) := by
            rcases nilKind_of_tagsWellFormed htags hnil with h' | h' <;>
              simp [toItems, hbig, Tags.nilKindOf, hnil, h', tag, header, Item.encode, singleByte, encodeList]
          beta_reduce
          rw [henc]
          exact ⟨rfl, List.prefix_iff_eq_take.mpr htake.symm, (advance_eq_consume hb hroom.1.1).symm⟩
        · exact hsimple s₁ (decode_of_kindOf hkind fuel e noTags rfl) h
      · exact hsimple s rfl h
  | .slice e, ts, _, hw, hno, _ => by
      simp only [Ty.wellFormed, Bool.and_eq_true] at hw
      simp only [Ty.noOptional] at hno
      have ih := readsOnly_decode fuel e noTags false hw.2 hno (tagsWellFormed_noTags e false)
      cases htail : ts.tail
      · -- a list of its own
        refine readsOnly_list (fun s s₁ kn h => decode_of_kindOf h fuel _ ts htail) (fun s v s' h => ?_)
          (fun s v s' P hk hb hP hlen h => ?_)
        · simp only [decode, htail, Bool.false_eq_true, if_false, decodeListSlice] at h
          rcases hl : s.list with err | ⟨P, s₂⟩
          · simp [hl, Except.map] at h
          · exact ⟨P, s₂, rfl⟩
        · simp only [decode, htail, Bool.false_eq_true, if_false, option_map_eq_ok] at h
          obtain ⟨xs, hd, rfl⟩ := h
          obtain ⟨hxs, hpre, hP, rfl⟩ := decodeListSlice_sound ih hk hb hP hlen hd
          refine ⟨allTyped_iff.mpr hxs, elemsItems e xs, by simp [toItems, htail], ?_⟩
          rw [encodeList_elemsItems]
          exact ⟨hpre, hP, rfl⟩
      · -- a `tail`: the elements up to the end of the enclosing list
        intro s v s' hk hb hlen h
        simp only [decode, htail, if_true, option_map_eq_ok] at h
        obtain ⟨xs, hd, rfl⟩ := h
        obtain ⟨hxs, hpre, hs'⟩ := decodeSliceElems_sound ih fuel s xs s' hk hb hlen hd
        simp only [typed, toItems, htail, if_true, encodeList_elemsItems]
        exact ⟨allTyped_iff.mpr hxs, hpre, hs'⟩
  | .array len e, ts, _, hw, hno, htags => by
      simp only [Ty.wellFormed, Bool.and_eq_true] at hw
      simp only [Ty.noOptional] at hno
      have htail : ts.tail = false := by
        cases h : ts.tail
        · rfl
        · rcases tail_kind htags h with ⟨_, h'⟩ | h' <;> cases h'
      have ih := readsOnly_decode fuel e noTags false hw.2 hno (tagsWellFormed_noTags e false)
      refine readsOnly_list (fun s s₁ kn h => decode_of_kindOf h fuel _ ts htail) (fun s v s' h => ?_)
        (fun s v s' P hk hb hP hlen h => ?_)
      · simp only [decode, decodeListArray] at h
        rcases hl : s.list with err | ⟨P, s₂⟩
        · simp [hl, Except.map] at h
        · exact ⟨P, s₂, rfl⟩
      · simp only [decode, option_map_eq_ok] at h
        obtain ⟨xs, hd, rfl⟩ := h
        obtain ⟨hn, hxs, hpre, hP, rfl⟩ := decodeListArray_sound ih hk hb hP hlen hd
        refine ⟨by simp [typed, hn, allTyped_iff.mpr hxs], elemsItems e xs, by simp [toItems, htail], ?_⟩
        rw [encodeList_elemsItems]
        exact ⟨hpre, hP, rfl⟩
  | .struct fs, ts, _, hw, hno, htags => by
      simp only [Ty.wellFormed] at hw
      simp only [Ty.noOptional] at hno
      have htail : ts.tail = false := by
        cases h : ts.tail
        · rfl
        · rcases tail_kind htags h with ⟨_, h'⟩ | h' <;> cases h'
      refine readsOnly_list (fun s s₁ kn h => decode_of_kindOf h fuel _ ts htail) (fun s v s' h => ?_)
        (fun s v s' P hk hb hP hlen h => ?_)
      · simp only [decode] at h
        rcases hl : s.list with err | ⟨P, s₂⟩
        · simp [hl] at h
        · exact ⟨P, s₂, rfl⟩
      · simp only [decode, list_of_kindOf (kindOf_cached hk)] at h
        rcases hf : decodeFields fs fuel (s.enter P) with _ | (err | ⟨xs, s₂⟩)
        · simp [hf] at h
        · simp [hf, Except.bind] at h
        rcases hend : s₂.listEnd with err | s₃
        · simp [hf, hend, Except.bind, Except.map] at h
        simp only [hf, hend, Option.map_some, Option.some.injEq, Except.bind, Except.map, Except.ok.injEq,
          Prod.mk.injEq] at h
        obtain ⟨rfl, rfl⟩ := h
        obtain ⟨hxs, hpre, rfl⟩ := readsOnly_decodeFields fuel fs false hw hno (s.enter P) xs s₂ rfl
          (hb.enter hP) hlen hf
        obtain ⟨hc, rfl⟩ := listEnd_enter_consume hP (lt_of_le_of_lt hpre.length_le hlen) hend
        exact ⟨hxs, fieldsItems fs xs fs.length, by simp [toItems, keptFields_of_noOptional hno], hpre, hc, rfl⟩

theorem readsOnly_decodeFields (fuel : ℕ) : ∀ (fs : List (Ty × Tags)) (a : Bool), fieldsWellFormed a fs = true →
    fieldsNoOptional fs = true →
    ReadsOnly (decodeFields fs fuel) (fun xs => fieldsTyped fs xs = true)
      (fun xs => encodeList (fieldsItems fs xs fs.length))
  | [], _, _, _ => fun s xs s' hk hb _ h => by
      simp only [decodeFields, Option.some.injEq, Except.ok.injEq, Prod.mk.injEq] at h
      obtain ⟨rfl, rfl⟩ := h
      exact ⟨rfl, List.nil_prefix, consume_zero hk hb⟩
  | (t, ts) :: fs, _, hw, hno => fun s xs s' hk hb hlen h => by
      simp only [fieldsWellFormed, Bool.and_eq_true] at hw
      simp only [fieldsNoOptional, Bool.and_eq_true, Bool.not_eq_true'] at hno
      -- a field, then the fields after it; `EOL` here is too few elements
      rcases hd : decode t ts fuel s with _ | (err | ⟨x, s₁⟩)
      · simp [decodeFields, hd] at h
      · simp only [decodeFields, hd, hno.1.1, Bool.false_eq_true, if_false] at h
        split_ifs at h <;> simp at h
      simp only [decodeFields, hd, option_map_eq_ok] at h
      obtain ⟨xs', hrest, rfl⟩ := h
      obtain ⟨hx, hpre, rfl⟩ := readsOnly_decode fuel t ts _ hw.1.1.1 hno.1.2 hw.1.1.2 s x s₁ hk hb hlen hd
      obtain ⟨hxs, hpre', hs'⟩ := readsOnly_decodeFields fuel fs _ hw.2 hno.2 _ xs' s' rfl (hb.consume _)
        (by simp [consume]; omega) hrest
      beta_reduce at hpre hpre' hs' ⊢
      refine ⟨by simp [fieldsTyped, hx, hxs], ?_⟩
      rw [List.length_cons, show fieldsItems ((t, ts) :: fs) (x :: xs') (fs.length + 1) =
        toItems t ts x ++ fieldsItems fs xs' fs.length from rfl, encodeList_append]
      exact consume_append hb hlen hpre rfl hpre' hs'
end

end GoQuai.Rlp
