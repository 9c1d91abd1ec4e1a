import GoQuai.Common.Address
import GoQuai.Rlp.Writer

/-! # Addresses on the wire

`Address.EncodeRLP` writes the inner address as a twenty-byte array, a nil
address as the zero internal address. `Address.DecodeRLP` reads a byte string
of any length and hands it to `BytesToAddress`, which classifies it by the
node's location and crops or pads it to twenty bytes.
-/

namespace GoQuai.Common

open GoQuai.Rlp GoQuai.Rlp.Stream

/-- `Address.EncodeRLP`. -/
def Address.encodeRLP (w : Encbuf) : Address → Encbuf
  | .nil => writeByteArray zeroAddress.bytes w
  | .internal a => writeByteArray a.bytes w
  | .external a => writeByteArray a.bytes w

/-- `Address.DecodeRLP`. -/
def Address.decodeRLP (nodeLocation : Location) (s : Stream) : Option (Except Error (Address × Stream)) :=
  match s.bytes with
  | .error e => some (.error e)
  | .ok (b, s) => (bytesToAddress nodeLocation b).map fun a => .ok (a, s)

/-- `EncodeToBytes` of an address. -/
def encodeAddress (a : Address) : List UInt8 := (Address.encodeRLP Encbuf.reset a).toBytes

/-- `DecodeBytes` into an address. -/
def decodeAddress (nodeLocation : Location) (b : List UInt8) : Option (Except Error Address) :=
  (Address.decodeRLP nodeLocation (Stream.ofBytes b)).map decodeEnd

theorem encodeAddress_eq (a : Address) : encodeAddress a = (Item.str a.bytes20.bytes).encode := by
  -- twenty bytes take `makeByteArrayWriter`'s `writeByteArray` branch
  have h := (writes_makeByteArrayWriter (b := a.bytes20.bytes)).toBytes_reset
  rw [AddressBytes.length_eq] at h
  cases a <;> exact h

theorem decodeAddress_of_bytes {nodeLocation : Location} {c b : List UInt8} {s : Stream}
    (h : (Stream.ofBytes c).bytes = .ok (b, s)) :
    decodeAddress nodeLocation c = (bytesToAddress nodeLocation b).map fun a => decodeEnd (.ok (a, s)) := by
  simp only [decodeAddress, Address.decodeRLP, h]
  cases bytesToAddress nodeLocation b <;> rfl

/-- Every byte string, of any length, is read as the address `BytesToAddress`
makes of it. -/
theorem decodeAddress_encode (nodeLocation : Location) {b : List UInt8} (hb : (Item.str b).encode.length < 2 ^ 64) :
    decodeAddress nodeLocation (Item.str b).encode = (bytesToAddress nodeLocation b).map .ok := by
  have hroom : (Stream.ofBytes (Item.str b).encode).Room (Item.str b).encode.length :=
    ⟨⟨by simp [Stream.ofBytes], fun _ => le_rfl⟩, le_rfl⟩
  have hbytes := bytes_encode rfl (lt_of_le_of_lt (length_le_encode_str b) hb) hroom List.take_length
  rw [decodeAddress_of_bytes hbytes]
  simp [decodeEnd, Except.bind, Stream.ofBytes]

/-- What `DecodeRLP` accepts is a byte string's encoding, read as the address
`BytesToAddress` makes of it. -/
theorem decodeAddress_sound {nodeLocation : Location} {c : List UInt8} {a : Address}
    (h : decodeAddress nodeLocation c = some (.ok a)) :
    ∃ b, (Item.str b).encode = c ∧ bytesToAddress nodeLocation b = some a := by
  rcases hbytes : (Stream.ofBytes c).bytes with e | ⟨b, s⟩
  · simp [decodeAddress, Address.decodeRLP, hbytes, decodeEnd, Except.bind] at h
  obtain ⟨n, hroom, htake, rfl⟩ := bytes_sound rfl hbytes
  rw [decodeAddress_of_bytes hbytes] at h
  rcases haddr : bytesToAddress nodeLocation b with _ | a'
  · simp [haddr] at h
  simp only [haddr, Option.map_some, Option.some.injEq, decodeEnd, Except.bind] at h
  split_ifs at h with hrest
  cases h
  refine ⟨b, ?_, haddr⟩
  have hlen : n = c.length := by
    simp only [Stream.advance, charge, Stream.ofBytes, List.length_drop, gt_iff_lt,
      Nat.sub_pos_iff_lt, not_lt] at hrest
    have := hroom.2
    simp only [Stream.ofBytes] at this
    omega
  rw [← htake, hlen]
  exact List.take_length

/-- `DecodeBytes` into an address accepts exactly the encodings of the byte
strings `BytesToAddress` takes, of any length, and returns the address it makes. -/
theorem decodeAddress_eq_ok_iff {nodeLocation : Location} {c : List UInt8} {a : Address}
    (hc : c.length < 2 ^ 64) :
    decodeAddress nodeLocation c = some (.ok a) ↔
      ∃ b, (Item.str b).encode = c ∧ bytesToAddress nodeLocation b = some a := by
  refine ⟨decodeAddress_sound, ?_⟩
  rintro ⟨b, rfl, hb⟩
  rw [decodeAddress_encode nodeLocation hc, hb]
  rfl

/-- Two bytes led by 1 on zone `[0, 0]`: read as the internal address they pad. -/
theorem decodeAddress_eq_ok_iff_short :
    [0x82, 1, 2].length < 2 ^ 64 ∧
      (decodeAddress [0, 0] [0x82, 1, 2] = some (.ok (.internal (setBytes [1, 2]))) ↔
        ∃ b, (Item.str b).encode = [0x82, 1, 2] ∧ bytesToAddress [0, 0] b = some (.internal (setBytes [1, 2]))) :=
  ⟨by decide, decodeAddress_eq_ok_iff (by decide)⟩

/-- Decoding an encoded address gives what `BytesToAddress` makes of its twenty bytes. -/
theorem decodeAddress_encodeAddress (nodeLocation : Location) (a : Address) :
    decodeAddress nodeLocation (encodeAddress a) = (bytesToAddress nodeLocation a.bytes20.bytes).map .ok := by
  have hlen : (Item.str a.bytes20.bytes).encode.length = 21 := by
    rw [encode_str_of_length_ne_one (by simp [AddressBytes.length_eq]), List.length_append,
      length_header, AddressBytes.length_eq]
    rfl
  rw [encodeAddress_eq]
  exact decodeAddress_encode nodeLocation (by omega)

/-- Twenty-one bytes: a zero, then the address `1, 0, …, 0`. -/
def paddedInput : List UInt8 := 0x95 :: 0 :: 1 :: List.replicate 19 0

/-- On zone `[0, 0]`, the encoding of the internal address `1, 0, …, 0` and
`paddedInput` are both read as that address, and a nil address comes back as
the zero internal address. -/
theorem address_decoding_is_malleable :
    decodeAddress [0, 0] (encodeAddress (.internal (setBytes (1 :: List.replicate 19 0)))) =
        some (.ok (.internal (setBytes (1 :: List.replicate 19 0)))) ∧
      decodeAddress [0, 0] paddedInput = some (.ok (.internal (setBytes (1 :: List.replicate 19 0)))) ∧
      encodeAddress (.internal (setBytes (1 :: List.replicate 19 0))) ≠ paddedInput ∧
      decodeAddress [0, 0] (encodeAddress .nil) = some (.ok (.internal zeroAddress)) :=
  ⟨rfl, by decide, by decide, rfl⟩

end GoQuai.Common
