import GoQuai.Rlp.Decoder

/-! # The codec

`EncodeToBytes`, `Encode` and `EncodeToReader` against `DecodeBytes`, on the
values of every type the codec accepts. Writing gives the reference encoding of
the value; decoding that gives back every value `restorable` admits; and
without optional struct fields `DecodeBytes` accepts only the encodings of the
values it returns. The values outside `restorable`, and the inputs an optional
field admits beyond the encodings, are where the round trip fails.
-/

namespace GoQuai.Rlp

open GoQuai.Rlp.Stream

theorem bounded_ofBytes (b : List UInt8) : (Stream.ofBytes b).Bounded := by
  simp [Stream.Bounded, Stream.ofBytes]

theorem room_ofBytes (b : List UInt8) : (Stream.ofBytes b).Room b.length :=
  ⟨⟨by simp [Stream.ofBytes], fun _ => le_rfl⟩, le_rfl⟩

/-- `EncodeToBytes` writes the reference encoding of the value. -/
theorem encodeToBytes_eq {t : Ty} {v : Val} (hw : t.wellFormed = true) (ht : typed t v = true) :
    encodeToBytes t v = encodeList (toItems t noTags v) :=
  (writes_write t noTags v hw ht).toBytes_reset

/-- `DecodeBytes` reads back the encoding of a value it can restore. -/
theorem decodeBytes_encodeToBytes {t : Ty} {v : Val} (hw : t.wellFormed = true) (ht : typed t v = true)
    (hr : restorable t noTags v = true) (hlen : (encodeToBytes t v).length < 2 ^ 64) :
    decodeBytes t (encodeToBytes t v) = some (.ok v) := by
  rw [encodeToBytes_eq hw ht] at hlen ⊢
  have h := readsBack_decode _ t noTags v hw (tagsWellFormed_noTags t false) ht hr (Nat.lt_add_one _) hlen
    (Stream.ofBytes _) rfl (bounded_ofBytes _) (room_ofBytes _) List.take_length
  rw [decodeBytes, h]
  simp [decodeEnd, Except.bind, Stream.ofBytes]

/-- Without optional fields `DecodeBytes` accepts only the encoding of the
value it returns. -/
theorem encodeToBytes_of_decodeBytes {t : Ty} {b : List UInt8} {v : Val} (hw : t.wellFormed = true)
    (hno : t.noOptional = true) (hlen : b.length < 2 ^ 64) (h : decodeBytes t b = some (.ok v)) :
    typed t v = true ∧ encodeToBytes t v = b := by
  rcases hd : decode t noTags (b.length + 1) (Stream.ofBytes b) with _ | (e | ⟨v', s'⟩)
  · simp [decodeBytes, hd] at h
  · simp [decodeBytes, hd, decodeEnd, Except.bind] at h
  simp only [decodeBytes, hd, Option.map_some, Option.some.injEq, decodeEnd, Except.bind] at h
  split_ifs at h with hrest
  cases h
  obtain ⟨hty, hpre, rfl⟩ := readsOnly_decode _ t noTags false hw hno (tagsWellFormed_noTags t false)
    (Stream.ofBytes b) v _ rfl (bounded_ofBytes b) hlen hd
  refine ⟨hty, ?_⟩
  rw [encodeToBytes_eq hw hty]
  -- no input is left after the value, so the value's encoding is all of it
  have hall : b.length ≤ (encodeList (toItems t noTags v)).length := by
    simpa [consume, Stream.ofBytes] using hrest
  exact hpre.eq_of_length (le_antisymm hpre.length_le hall)

/-- A struct with a field of each kind, a `nil`-tagged pointer and a `tail`. -/
def recordTy : Ty := .struct
  [(.uint 64, noTags), (.bool, noTags), (.string, noTags), (.byteArray 3, noTags), (.ptr .bigInt, noTags),
    (.array 2 (.uint 16), noTags), (.ptr (.uint 32), ⟨true, .string, false, false⟩), (.iface, noTags),
    (.slice .bytes, ⟨false, .byte 0, false, true⟩)]

def recordVal : Val := .list
  [.uint 1024, .bool true, .bytes [0x64, 0x6F, 0x67], .bytes [1, 2, 3], .ptr (.bigInt (2 ^ 70)),
    .list [.uint 0, .uint 300], .nil, .iface (.slice .iface) (.list [.iface .bytes (.bytes [7])]),
    .list [.bytes [0xAB], .bytes []]]

/-- `rlp:"nil"` on a pointer to a string-kind element, `rlp:"optional"` and
`rlp:"tail"`. -/
def nilTags : Tags := ⟨true, .string, false, false⟩

def optionalTags : Tags := ⟨false, .byte 0, true, false⟩

def tailTags : Tags := ⟨false, .byte 0, false, true⟩

end GoQuai.Rlp
