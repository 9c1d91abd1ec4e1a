import GoQuai.Rlp.Encode

/-! # The RLP decoding stream

`Stream` of `rlp/decode.go` over a byte reader: the reader's unread input, the
input limit, the stack of remaining list sizes and the cached result of
`Kind`. The stack is kept innermost first. `Kind` carries the value of a
single byte (Go's `byteval`), which is only read when the kind is `Byte`.

An operation that fails returns its error and drops the stream, which no
caller reads after an error. `EOL` is the one error callers recover from;
`Kind` returns it before touching the stream.
-/

namespace GoQuai.Rlp

open GoQuai.BigEndian

section Except

variable {ε α β : Type}

@[simp] theorem except_ok_bind (a : α) (f : α → Except ε β) : (Except.ok a >>= f) = f a := rfl

@[simp] theorem except_error_bind (e : ε) (f : α → Except ε β) :
    (Except.error e >>= f) = Except.error e := rfl

@[simp] theorem except_pure (a : α) : (pure a : Except ε α) = Except.ok a := rfl

@[simp] theorem except_throw (e : ε) : (throw e : Except ε α) = Except.error e := rfl

theorem except_bind_eq_ok {x : Except ε α} {f : α → Except ε β} {b : β} :
    (x >>= f) = .ok b ↔ ∃ a, x = .ok a ∧ f a = .ok b := by
  cases x <;> simp

end Except

/-- `Kind`, with the byte of a single-byte value. -/
inductive Kind
  | byte (val : UInt8)
  | string
  | list
  deriving DecidableEq

/-- `Byte`, whose value is in the tag. -/
def Kind.isByte : Kind → Bool
  | .byte _ => true
  | _ => false

/-- The errors decoding can return; the `decodeError`s of the typed decoders
are the last five, by their messages. -/
inductive Error
  | eol
  | eof
  | unexpectedEOF
  | canonSize
  | canonInt
  | expectedStringOrByte
  | expectedList
  | elemTooLarge
  | valueTooLarge
  | uintOverflow
  | notInList
  | notAtEOL
  | moreThanOneValue
  | invalidBool
  | stringTooLong
  | stringTooShort
  | tooFewElements
  | listTooFewElements
  | wrongEmptyKind
  deriving DecidableEq

/-- `Stream`. -/
structure Stream where
  input : List UInt8
  remaining : ℕ
  limited : Bool
  stack : List ℕ
  kind : Option (Kind × ℕ)

namespace Stream

/-- The stream `DecodeBytes` reads: `Reset` with the slice's length as limit. -/
def ofBytes (b : List UInt8) : Stream := ⟨b, b.length, true, [], none⟩

/-- `willRead`: charge `n` bytes to the innermost list and the input limit. -/
def willRead (s : Stream) (n : ℕ) : Except Error Stream := do
  let s ← match s.stack with
    | [] => pure { s with kind := none }
    | limit :: rest =>
        if n > limit then throw .elemTooLarge
        else pure { s with kind := none, stack := (limit - n) :: rest }
  if s.limited then
    if n > s.remaining then throw .valueTooLarge
    else pure { s with remaining := s.remaining - n }
  else pure s

/-- `readByte`. -/
def readByte (s : Stream) : Except Error (UInt8 × Stream) := do
  let s ← s.willRead 1
  match s.input with
  | [] => throw .unexpectedEOF
  | b :: rest => pure (b, { s with input := rest })

/-- `readFull`. -/
def readFull (s : Stream) (n : ℕ) : Except Error (List UInt8 × Stream) := do
  let s ← s.willRead n
  if s.input.length < n then throw .unexpectedEOF
  else pure (s.input.take n, { s with input := s.input.drop n })

/-- `readUint`: a size of `size` bytes; from two bytes on a leading zero is
not canonical. -/
def readUint (s : Stream) : ℕ → Except Error (ℕ × Stream)
  | 0 => pure (0, { s with kind := none })
  | 1 => do
      let (b, s) ← s.readByte
      pure (b.toNat, s)
  | size + 2 => do
      let (buf, s) ← s.readFull (size + 2)
      if buf.head? = some 0 then throw .canonSize
      else pure (BigEndian.ofBytes buf, s)

/-- `readKind`: the type tag, and the size of the value it announces. -/
def readKind (s : Stream) : Except Error ((Kind × ℕ) × Stream) :=
  match s.readByte with
  | .error e =>
      -- at top level running out of input is the end of the input
      .error (if s.stack = [] ∧ (e = .unexpectedEOF ∨ e = .valueTooLarge) then .eof else e)
  | .ok (b, s) =>
      if b < 0x80 then pure ((.byte b, 0), s)
      else if b < 0xB8 then pure ((.string, (b - 0x80).toNat), s)
      else if b < 0xC0 then do
        let (size, s) ← s.readUint (b - 0xB7).toNat
        if size < 56 then throw .canonSize else pure ((.string, size), s)
      else if b < 0xF8 then pure ((.list, (b - 0xC0).toNat), s)
      else do
        let (size, s) ← s.readUint (b - 0xF7).toNat
        if size < 56 then throw .canonSize else pure ((.list, size), s)

/-- `Kind`: cached until the value is read. The size is checked against the
list's remaining size as it was before the tag was read. -/
def kindOf (s : Stream) : Except Error ((Kind × ℕ) × Stream) :=
  match s.kind with
  | some k => pure (k, s)
  | none =>
      if s.stack.head? = some 0 then throw .eol
      else do
        let (k, s') ← s.readKind
        if ∃ limit ∈ s.stack.head?, k.2 > limit then throw .elemTooLarge
        else if s'.limited ∧ k.2 > s'.remaining then throw .valueTooLarge
        else pure (k, { s' with kind := some k })

/-- `Bytes`. -/
def bytes (s : Stream) : Except Error (List UInt8 × Stream) := do
  let (k, s) ← s.kindOf
  match k with
  | (.byte b, _) => pure ([b], { s with kind := none })
  | (.string, size) =>
      let (b, s) ← s.readFull size
      if size = 1 ∧ ∃ x ∈ b.head?, x < 128 then throw .canonSize else pure (b, s)
  | (.list, _) => throw .expectedStringOrByte

/-- `uint64` subtraction, for operands below `2 ^ 64`. -/
def wrapSub (a b : ℕ) : ℕ := (a + 2 ^ 64 - b) % 2 ^ 64

/-- `List`: enter a list, charging its whole size to the enclosing one. The
size was checked against what was left of the enclosing list before the tag
was read, so the `uint64` subtraction can wrap. -/
def list (s : Stream) : Except Error (ℕ × Stream) := do
  let (k, s) ← s.kindOf
  match k with
  | (.list, size) =>
      let stack := match s.stack with
        | [] => []
        | limit :: rest => wrapSub limit size :: rest
      pure (size, { s with stack := size :: stack, kind := none })
  | _ => throw .expectedList

/-- `ListEnd`. -/
def listEnd (s : Stream) : Except Error Stream :=
  match s.stack with
  | [] => throw .notInList
  | limit :: rest => if limit > 0 then throw .notAtEOL else pure { s with stack := rest, kind := none }

/-- `uint`: an integer of at most `maxbits` bits, without leading zeros. -/
def uint (s : Stream) (maxbits : ℕ) : Except Error (ℕ × Stream) := do
  let (k, s) ← s.kindOf
  match k with
  | (.byte b, _) => if b = 0 then throw .canonInt else pure (b.toNat, { s with kind := none })
  | (.string, size) =>
      if size > maxbits / 8 then throw .uintOverflow
      else
        match s.readUint size with
        | .error .canonSize => throw .canonInt
        | .error e => throw e
        | .ok (v, s) => if size > 0 ∧ v < 128 then throw .canonSize else pure (v, s)
  | (.list, _) => throw .expectedStringOrByte

/-! ## Reading within the limits -/

/-- The stream after `willRead` charged `c` bytes: the innermost list and the
input limit lose them, and `Kind` is re-armed. -/
def charge (s : Stream) (c : ℕ) : Stream :=
  { s with
    remaining := if s.limited then s.remaining - c else s.remaining
    stack := match s.stack with
      | [] => []
      | limit :: rest => (limit - c) :: rest
    kind := none }

/-- The stream after `c` bytes are read. -/
def advance (s : Stream) (c : ℕ) : Stream := { s.charge c with input := s.input.drop c }

-- Generate the equation lemmas of these definitions once, here, rather than in
-- each of the proofs below that unfold them while they are elaborated in parallel.
section
attribute [local simp] willRead bytes list charge advance
end

/-- `c` bytes fit the innermost list and the input limit. -/
def Fits (s : Stream) (c : ℕ) : Prop := (∀ t ∈ s.stack.head?, c ≤ t) ∧ (s.limited → c ≤ s.remaining)

/-- `c` more bytes can be read: they fit, and they are in the input. -/
def Room (s : Stream) (c : ℕ) : Prop := s.Fits c ∧ c ≤ s.input.length

@[simp] theorem input_advance (s : Stream) (c : ℕ) : (s.advance c).input = s.input.drop c := rfl

theorem willRead_eq_ok_iff {s s' : Stream} {n : ℕ} :
    s.willRead n = .ok s' ↔ s.Fits n ∧ s.charge n = s' := by
  rcases s with ⟨input, remaining, limited, _ | ⟨limit, rest⟩, kind⟩ <;> cases limited
  · simp [willRead, charge, Fits]
  · by_cases hr : remaining < n
    · simp [willRead, charge, Fits, hr, Nat.not_le.mpr hr]
    · simp [willRead, charge, Fits, hr, Nat.le_of_not_lt hr]
  · by_cases hl : limit < n
    · simp [willRead, charge, Fits, hl, Nat.not_le.mpr hl]
    · simp [willRead, charge, Fits, hl, Nat.le_of_not_lt hl]
  · by_cases hl : limit < n
    · simp [willRead, charge, Fits, hl, Nat.not_le.mpr hl]
    · by_cases hr : remaining < n
      · simp [willRead, charge, Fits, hl, hr, Nat.not_le.mpr hr]
      · simp [willRead, charge, Fits, hl, hr, Nat.le_of_not_lt hl, Nat.le_of_not_lt hr]

theorem advance_advance (s : Stream) (a c : ℕ) : (s.advance a).advance c = s.advance (a + c) := by
  rcases s with ⟨input, remaining, limited, _ | ⟨limit, rest⟩, kind⟩ <;> cases limited <;>
    simp [advance, charge, Nat.sub_sub]

theorem advance_zero_eq (s : Stream) : s.advance 0 = { s with kind := none } := by
  rcases s with ⟨input, remaining, limited, _ | ⟨limit, rest⟩, kind⟩ <;> cases limited <;>
    simp [Stream.advance, charge]

theorem room_zero (s : Stream) : s.Room 0 := ⟨⟨fun _ _ => Nat.zero_le _, fun _ => Nat.zero_le _⟩, Nat.zero_le _⟩

theorem Room.mono {s : Stream} {a c : ℕ} (h : s.Room c) (hac : a ≤ c) : s.Room a :=
  ⟨⟨fun t ht => le_trans hac (h.1.1 t ht), fun hl => le_trans hac (h.1.2 hl)⟩, le_trans hac h.2⟩

theorem Room.advance {s : Stream} {a c : ℕ} (h : s.Room (a + c)) : (s.advance a).Room c := by
  obtain ⟨⟨hlim, hrem⟩, hin⟩ := h
  refine ⟨⟨fun t ht => ?_, fun hl => ?_⟩, by simp; omega⟩
  · rcases hs : s.stack with _ | ⟨limit, rest⟩
    · simp [Stream.advance, charge, hs] at ht
    · simp only [Stream.advance, charge, hs, List.head?_cons, Option.mem_def, Option.some.injEq] at ht
      have := hlim limit (by simp [hs])
      omega
  · simp only [Stream.advance, charge] at hl ⊢
    simp only [hl, if_true]
    have := hrem hl
    omega

theorem Room.add {s : Stream} {a c : ℕ} (ha : s.Room a) (hc : (s.advance a).Room c) : s.Room (a + c) := by
  obtain ⟨⟨hlim, hrem⟩, hin⟩ := hc
  refine ⟨⟨fun t ht => ?_, fun hl => ?_⟩, by have := ha.2; simp at hin; omega⟩
  · have hat := ha.1.1 t ht
    rcases hs : s.stack with _ | ⟨limit, rest⟩
    · simp [hs] at ht
    · simp only [hs, List.head?_cons, Option.mem_def, Option.some.injEq] at ht
      subst ht
      have := hlim (limit - a) (by simp [Stream.advance, charge, hs])
      omega
  · have := ha.1.2 hl
    have := hrem (by simpa [Stream.advance, charge] using hl)
    simp only [Stream.advance, charge, hl, if_true] at this
    omega

@[simp] theorem input_charge (s : Stream) (c : ℕ) : (s.charge c).input = s.input := rfl

theorem readFull_eq_ok_iff {s s' : Stream} {n : ℕ} {b : List UInt8} :
    s.readFull n = .ok (b, s') ↔ s.Room n ∧ s.input.take n = b ∧ s.advance n = s' := by
  simp only [readFull, except_bind_eq_ok, willRead_eq_ok_iff]
  constructor
  · rintro ⟨_, ⟨hfits, rfl⟩, h⟩
    split_ifs at h with hlen
    simp only [except_pure, Except.ok.injEq, Prod.mk.injEq] at h
    exact ⟨⟨hfits, by simpa using hlen⟩, by simpa using h.1, by simpa [advance] using h.2⟩
  · rintro ⟨⟨hfits, hlen⟩, rfl, rfl⟩
    refine ⟨_, ⟨hfits, rfl⟩, ?_⟩
    rw [if_neg (by simpa using hlen)]
    rfl

theorem readByte_eq_ok_iff {s s' : Stream} {b : UInt8} :
    s.readByte = .ok (b, s') ↔ s.Room 1 ∧ s.input.head? = some b ∧ s.advance 1 = s' := by
  simp only [readByte, except_bind_eq_ok, willRead_eq_ok_iff]
  constructor
  · rintro ⟨_, ⟨hfits, rfl⟩, h⟩
    rcases hin : s.input with _ | ⟨x, xs⟩
    · simp [hin] at h
    · simp only [input_charge, hin, except_pure, Except.ok.injEq, Prod.mk.injEq] at h
      obtain ⟨rfl, rfl⟩ := h
      exact ⟨⟨hfits, by simp [hin]⟩, rfl, by simp [advance, hin]⟩
  · rintro ⟨⟨hfits, hlen⟩, hhead, rfl⟩
    refine ⟨_, ⟨hfits, rfl⟩, ?_⟩
    rcases hin : s.input with _ | ⟨x, xs⟩
    · simp [hin] at hhead
    · simp only [hin, List.head?_cons, Option.some.injEq] at hhead
      simp [hin, hhead, advance]

theorem ofBytes_singleton (b : UInt8) : BigEndian.ofBytes [b] = b.toNat := by
  simp [BigEndian.ofBytes]

theorem toBytes_one : toBytes 1 = [1] := toBytes_eq_iff.mpr ⟨by simp, ofBytes_singleton 1⟩

/-- A size of `k ≥ 1` bytes: the bytes' number, with no leading zero from two
bytes on. -/
theorem readUint_eq_ok_iff {s s' : Stream} {k v : ℕ} (hk : k ≠ 0) :
    s.readUint k = .ok (v, s') ↔ s.Room k ∧ (2 ≤ k → (s.input.take k).head? ≠ some 0) ∧
      BigEndian.ofBytes (s.input.take k) = v ∧ s.advance k = s' := by
  match k, hk with
  | 1, _ =>
      simp only [readUint, except_bind_eq_ok, readByte_eq_ok_iff, Prod.exists]
      constructor
      · rintro ⟨b, _, ⟨hroom, hhead, rfl⟩, h⟩
        simp only [except_pure, Except.ok.injEq, Prod.mk.injEq] at h
        obtain ⟨rfl, rfl⟩ := h
        refine ⟨hroom, by omega, ?_, rfl⟩
        rw [List.take_one, hhead]
        exact ofBytes_singleton b
      · rintro ⟨hroom, -, hv, rfl⟩
        obtain ⟨x, hx⟩ : ∃ x, s.input.head? = some x := Option.ne_none_iff_exists'.mp (by
          intro h
          have := hroom.2
          rw [List.head?_eq_none_iff] at h
          simp [h] at this)
        refine ⟨x, _, ⟨hroom, hx, rfl⟩, ?_⟩
        simp only [List.take_one, hx, Option.toList_some, ofBytes_singleton] at hv
        simp [hv]
  | size + 2, _ =>
      simp only [readUint, except_bind_eq_ok, readFull_eq_ok_iff, Prod.exists]
      constructor
      · rintro ⟨buf, _, ⟨hroom, rfl, rfl⟩, h⟩
        split_ifs at h with hzero
        simp only [except_pure, Except.ok.injEq, Prod.mk.injEq] at h
        exact ⟨hroom, fun _ => hzero, h.1, h.2⟩
      · rintro ⟨hroom, hlead, rfl, rfl⟩
        refine ⟨_, _, ⟨hroom, rfl, rfl⟩, ?_⟩
        rw [if_neg (hlead (by omega))]
        rfl

/-- `readUint` of `k` bytes is `readFull` of them, with no leading zero from two bytes on. -/
theorem readUint_eq_ok_iff_readFull {s s' : Stream} {k v : ℕ} :
    s.readUint k = .ok (v, s') ↔ ∃ b, s.readFull k = .ok (b, s') ∧ (2 ≤ k → b.head? ≠ some 0) ∧ BigEndian.ofBytes b = v := by
  rcases Nat.eq_zero_or_pos k with rfl | hk
  · have hfull : s.readFull 0 = .ok ([], { s with kind := none }) := by
      rw [readFull_eq_ok_iff, advance_zero_eq]
      exact ⟨room_zero s, List.take_zero, rfl⟩
    simp only [readUint, except_pure, Except.ok.injEq, Prod.mk.injEq, hfull]
    constructor
    · rintro ⟨rfl, rfl⟩
      exact ⟨[], ⟨rfl, rfl⟩, by omega, rfl⟩
    · rintro ⟨b, ⟨rfl, rfl⟩, -, rfl⟩
      exact ⟨rfl, rfl⟩
  · rw [readUint_eq_ok_iff hk.ne']
    constructor
    · rintro ⟨hroom, hlead, rfl, rfl⟩
      exact ⟨_, readFull_eq_ok_iff.mpr ⟨hroom, rfl, rfl⟩, hlead, rfl⟩
    · rintro ⟨b, hfull, hlead, rfl⟩
      obtain ⟨hroom, rfl, rfl⟩ := readFull_eq_ok_iff.mp hfull
      exact ⟨hroom, hlead, rfl, rfl⟩

/-! ## Type tags

The tag of a short string or list is `0x80` or `0xC0` plus the size; a long
one's is `0xB7` or `0xF7` plus the length of the size's bytes, at most eight. -/

theorem toNat_add_ofNat {lo : UInt8} {n : ℕ} (h : lo.toNat + n < 256) :
    (lo + UInt8.ofNat n).toNat = lo.toNat + n := by
  have hn : n % 256 = n := Nat.mod_eq_of_lt (by omega)
  rw [UInt8.toNat_add, UInt8.toNat_ofNat']
  simp only [Nat.reducePow]
  rw [hn, Nat.mod_eq_of_lt h]

theorem add_ofNat_sub {b lo : UInt8} (h : ¬ b < lo) :
    lo + UInt8.ofNat (b - lo).toNat = b ∧ (b - lo).toNat = b.toNat - lo.toNat := by
  have hle : lo ≤ b := UInt8.le_iff_toNat_le.mpr (by rw [UInt8.lt_iff_toNat_lt] at h; omega)
  have hsub := UInt8.toNat_sub_of_le _ _ hle
  refine ⟨UInt8.toNat_inj.mp ?_, hsub⟩
  have hlo := UInt8.le_iff_toNat_le.mp hle
  rw [toNat_add_ofNat (by rw [hsub]; have := b.toNat_lt; omega), hsub]
  omega

/-- The bytes of a type tag and the size it announces. -/
def tag : Kind × ℕ → List UInt8
  | (.byte b, _) => [b]
  | (.string, n) => header 0x80 0xB7 n
  | (.list, n) => header 0xC0 0xF7 n

section
attribute [local simp] tag
end

/-- What a tag can announce: a single byte below `0x80` has size zero, and a
size has at most eight bytes. -/
def Tagged : Kind × ℕ → Prop
  | (.byte b, n) => b < 0x80 ∧ n = 0
  | (.string, n) => n < 2 ^ 64
  | (.list, n) => n < 2 ^ 64

/-- A size read in `k` bytes, one to eight, that is at least `56`: the bytes
are the size's shortest encoding. -/
theorem readUint_long {s₁ s₂ : Stream} {k size : ℕ} (hk1 : 1 ≤ k) (hk8 : k ≤ 8)
    (hu : s₁.readUint k = .ok (size, s₂)) (h56 : 56 ≤ size) :
    s₁.Room k ∧ BigEndian.toBytes size = s₁.input.take k ∧ (BigEndian.toBytes size).length = k ∧
      size < 2 ^ 64 ∧ s₁.advance k = s₂ := by
  obtain ⟨hroom, hlead, rfl, rfl⟩ := (readUint_eq_ok_iff (by omega)).mp hu
  have hlen : (s₁.input.take k).length = k := by simp [hroom.2]
  have hbytes : BigEndian.toBytes (BigEndian.ofBytes (s₁.input.take k)) = s₁.input.take k := by
    apply BigEndian.toBytes_ofBytes
    intro x hx hzero
    subst hzero
    rcases Nat.lt_or_ge k 2 with hk | hk
    · -- one byte: it is the size itself, at least `56`
      obtain ⟨y, hy⟩ := List.length_eq_one_iff.mp (show (s₁.input.take k).length = 1 by omega)
      rw [hy, ofBytes_singleton] at h56
      rw [hy] at hx
      simp only [List.head?_cons, Option.mem_def, Option.some.injEq] at hx
      subst hx
      simp at h56
    · exact hlead hk (Option.mem_def.mp hx)
  refine ⟨hroom, hbytes, by rw [hbytes, hlen], ?_, rfl⟩
  calc BigEndian.ofBytes (s₁.input.take k) < 256 ^ (s₁.input.take k).length := BigEndian.ofBytes_lt _
    _ ≤ 256 ^ 8 := Nat.pow_le_pow_right (by norm_num) (by omega)
    _ = 2 ^ 64 := by norm_num

theorem take_succ_of_head {l : List UInt8} {b : UInt8} (h : l.head? = some b) (k : ℕ) :
    l.take (k + 1) = b :: (l.drop 1).take k := by
  cases l with
  | nil => simp at h
  | cons x xs =>
      simp only [List.head?_cons, Option.some.injEq] at h
      simp [h]

/-- A long header: the tag `lo + k` and then the size in `k` bytes. -/
theorem long_header (lo : UInt8) {s s₂ : Stream} {b : UInt8} {size : ℕ} (hlo : lo.toNat + 8 < 256)
    (hb : ¬ b < lo + 1) (hb8 : b.toNat ≤ lo.toNat + 8) (hhead : s.input.head? = some b)
    (hroom₁ : s.Room 1) (hu : (s.advance 1).readUint (b - lo).toNat = .ok (size, s₂))
    (h56 : ¬ size < 56) :
    size < 2 ^ 64 ∧ s.Room ((lo + UInt8.ofNat (toBytes size).length) :: toBytes size).length ∧
      s.input.take ((lo + UInt8.ofNat (toBytes size).length) :: toBytes size).length =
        (lo + UInt8.ofNat (toBytes size).length) :: toBytes size ∧
      s.advance ((lo + UInt8.ofNat (toBytes size).length) :: toBytes size).length = s₂ := by
  have hle : ¬ b < lo := fun h => hb (UInt8.lt_iff_toNat_lt.mpr (by
    rw [UInt8.lt_iff_toNat_lt] at h
    rw [show (lo + 1 : UInt8) = lo + UInt8.ofNat 1 from rfl, toNat_add_ofNat (by omega)]
    omega))
  obtain ⟨hb', hsub⟩ := add_ofNat_sub hle
  have hk : 1 ≤ (b - lo).toNat ∧ (b - lo).toNat ≤ 8 := by
    rw [UInt8.lt_iff_toNat_lt, show (lo + 1 : UInt8) = lo + UInt8.ofNat 1 from rfl,
      toNat_add_ofNat (by omega)] at hb
    omega
  obtain ⟨hroom₂, hbytes, hlen, hsize, rfl⟩ := readUint_long hk.1 hk.2 hu (by omega)
  rw [hlen, hb', hbytes, input_advance, List.length_cons, List.length_take, List.length_drop,
    Nat.min_eq_left (by have := hroom₂.2; simpa using this)]
  refine ⟨hsize, Nat.add_comm 1 _ ▸ hroom₁.add hroom₂, (take_succ_of_head hhead _).symm ▸ rfl, ?_⟩
  rw [advance_advance, Nat.add_comm]

/-- What `readKind` accepts: a tag it can announce, read in full. -/
theorem readKind_sound {s s' : Stream} {kn : Kind × ℕ} (h : s.readKind = .ok (kn, s')) :
    Tagged kn ∧ s.Room (tag kn).length ∧ s.input.take (tag kn).length = tag kn ∧
      s.advance (tag kn).length = s' := by
  unfold readKind at h
  rcases hb : s.readByte with e | ⟨b, s₁⟩
  · simp [hb] at h
  obtain ⟨hroom₁, hhead, rfl⟩ := readByte_eq_ok_iff.mp hb
  rw [hb] at h
  dsimp only at h
  have htake₁ : s.input.take 1 = [b] := by
    rw [take_succ_of_head hhead 0, List.take_zero]
  have hb256 := b.toNat_lt
  split_ifs at h with h80 hB8 hC0 hF8
  · -- a single byte
    simp only [except_pure, Except.ok.injEq, Prod.mk.injEq] at h
    obtain ⟨rfl, rfl⟩ := h
    exact ⟨⟨h80, rfl⟩, hroom₁, htake₁, rfl⟩
  · -- a short string
    simp only [except_pure, Except.ok.injEq, Prod.mk.injEq] at h
    obtain ⟨rfl, rfl⟩ := h
    obtain ⟨hb', hsub⟩ := add_ofNat_sub h80
    have hn : (b - 0x80).toNat < 56 := by
      rw [UInt8.lt_iff_toNat_lt] at hB8
      simp at hB8 hsub
      omega
    refine ⟨by simp only [Tagged]; omega, ?_⟩
    simp only [tag, header, hn, if_true, hb', List.length_singleton]
    exact ⟨hroom₁, htake₁, trivial⟩
  · -- a long string: the size follows in `b - 0xB7` bytes
    rw [except_bind_eq_ok] at h
    obtain ⟨⟨size, s₂⟩, hu, h⟩ := h
    dsimp only at h
    split_ifs at h with h56
    simp only [except_pure, Except.ok.injEq, Prod.mk.injEq] at h
    obtain ⟨rfl, rfl⟩ := h
    rw [UInt8.lt_iff_toNat_lt] at hC0
    simp at hC0
    have hlong := long_header 0xB7 (by decide) hB8 (by simp; omega) hhead hroom₁ hu h56
    simp only [tag, header, if_neg h56]
    exact hlong
  · -- a short list
    simp only [except_pure, Except.ok.injEq, Prod.mk.injEq] at h
    obtain ⟨rfl, rfl⟩ := h
    obtain ⟨hb', hsub⟩ := add_ofNat_sub hC0
    have hn : (b - 0xC0).toNat < 56 := by
      rw [UInt8.lt_iff_toNat_lt] at hF8
      simp at hF8 hsub
      omega
    refine ⟨by simp only [Tagged]; omega, ?_⟩
    simp only [tag, header, hn, if_true, hb', List.length_singleton]
    exact ⟨hroom₁, htake₁, trivial⟩
  · -- a long list
    rw [except_bind_eq_ok] at h
    obtain ⟨⟨size, s₂⟩, hu, h⟩ := h
    dsimp only at h
    split_ifs at h with h56
    simp only [except_pure, Except.ok.injEq, Prod.mk.injEq] at h
    obtain ⟨rfl, rfl⟩ := h
    have hlong := long_header 0xF7 (by decide) hF8 (by simp; omega) hhead hroom₁ hu h56
    simp only [tag, header, if_neg h56]
    exact hlong

theorem head_of_take {l : List UInt8} {x : UInt8} {xs : List UInt8}
    (h : l.take (x :: xs).length = x :: xs) : l.head? = some x := by
  cases l with
  | nil => simp at h
  | cons y ys =>
      simp only [List.length_cons, List.take_succ_cons, List.cons.injEq] at h
      simp [h.1]

theorem take_drop_of_take {l : List UInt8} {x : UInt8} {xs : List UInt8}
    (h : l.take (x :: xs).length = x :: xs) : (l.drop 1).take xs.length = xs := by
  cases l with
  | nil => simp at h
  | cons y ys =>
      simp only [List.length_cons, List.take_succ_cons, List.cons.injEq] at h
      simpa using h.2

/-- Reading back the shortest bytes of a nonzero size. -/
theorem readUint_toBytes {s : Stream} {n : ℕ} (hn : n ≠ 0) (hroom : s.Room (toBytes n).length)
    (hin : s.input.take (toBytes n).length = toBytes n) :
    s.readUint (toBytes n).length = .ok (n, s.advance (toBytes n).length) := by
  have hlen : (toBytes n).length ≠ 0 := fun h => hn (toBytes_eq_nil_iff.mp (List.length_eq_zero_iff.mp h))
  rw [readUint_eq_ok_iff hlen, hin, ofBytes_toBytes]
  exact ⟨hroom, fun _ => fun h => head_toBytes_ne_zero n 0 (Option.mem_def.mpr h) rfl, rfl, rfl⟩

/-- `readKind` reads every tag it can announce. -/
theorem readKind_tag {s : Stream} {kn : Kind × ℕ} (hkn : Tagged kn) (hroom : s.Room (tag kn).length)
    (hin : s.input.take (tag kn).length = tag kn) :
    s.readKind = .ok (kn, s.advance (tag kn).length) := by
  obtain ⟨k, n⟩ := kn
  cases k with
  | byte x =>
      obtain ⟨hx, rfl⟩ := hkn
      have hb : s.readByte = .ok (x, s.advance 1) := readByte_eq_ok_iff.mpr ⟨hroom, head_of_take hin, rfl⟩
      simp [readKind, hb, hx, tag]
  | string =>
      by_cases h56 : n < 56
      · -- a short string: `0x80 + n`
        simp only [tag, header, h56, if_true] at hroom hin ⊢
        have ht := toNat_add_ofNat (show (0x80 : UInt8).toNat + n < 256 by simp only [UInt8.toNat_ofNat, Nat.reducePow, Nat.reduceMod]; omega)
        have hb : s.readByte = .ok (0x80 + UInt8.ofNat n, s.advance 1) :=
          readByte_eq_ok_iff.mpr ⟨hroom, head_of_take hin, rfl⟩
        have h80 : ¬ 0x80 + UInt8.ofNat n < 0x80 := by simp only [UInt8.lt_iff_toNat_lt, ht, UInt8.toNat_ofNat, Nat.reducePow, Nat.reduceMod]; omega
        have hB8 : 0x80 + UInt8.ofNat n < 0xB8 := by simp only [UInt8.lt_iff_toNat_lt, ht, UInt8.toNat_ofNat, Nat.reducePow, Nat.reduceMod]; omega
        have hsub := (add_ofNat_sub h80).2
        rw [ht] at hsub
        simp only [readKind, hb, h80, hB8, if_false, if_true, List.length_singleton, hsub]
        simp only [show UInt8.toNat 0x80 = 128 from rfl, Nat.add_sub_cancel_left, except_pure]
      · -- a long string: `0xB7 + k`, then the size in `k` bytes
        have hn0 : n ≠ 0 := by omega
        have hk : (toBytes n).length ≤ 8 := length_toBytes_le_iff.mpr (lt_of_lt_of_eq hkn (by norm_num))
        have hk1 : 1 ≤ (toBytes n).length := Nat.pos_of_ne_zero fun h =>
          hn0 (toBytes_eq_nil_iff.mp (List.length_eq_zero_iff.mp h))
        simp only [tag, header, h56, if_false] at hroom hin ⊢
        have ht := toNat_add_ofNat (show (0xB7 : UInt8).toNat + (toBytes n).length < 256 by simp only [UInt8.toNat_ofNat, Nat.reducePow, Nat.reduceMod]; omega)
        have hb : s.readByte = .ok (0xB7 + UInt8.ofNat (toBytes n).length, s.advance 1) :=
          readByte_eq_ok_iff.mpr ⟨hroom.mono (by simp), head_of_take hin, rfl⟩
        have h80 : ¬ 0xB7 + UInt8.ofNat (toBytes n).length < 0x80 := by
          simp only [UInt8.lt_iff_toNat_lt, ht, UInt8.toNat_ofNat, Nat.reducePow, Nat.reduceMod]; omega
        have hB8 : ¬ 0xB7 + UInt8.ofNat (toBytes n).length < 0xB8 := by
          simp only [UInt8.lt_iff_toNat_lt, ht, UInt8.toNat_ofNat, Nat.reducePow, Nat.reduceMod]; omega
        have hC0 : 0xB7 + UInt8.ofNat (toBytes n).length < 0xC0 := by
          simp only [UInt8.lt_iff_toNat_lt, ht, UInt8.toNat_ofNat, Nat.reducePow, Nat.reduceMod]; omega
        have hsub := (add_ofNat_sub (show ¬ 0xB7 + UInt8.ofNat (toBytes n).length < 0xB7 by
          simp only [UInt8.lt_iff_toNat_lt, ht, UInt8.toNat_ofNat, Nat.reducePow, Nat.reduceMod]
          omega)).2
        rw [ht] at hsub
        have hroom₂ : (s.advance 1).Room (toBytes n).length := Room.advance (by
          rw [List.length_cons] at hroom; rwa [Nat.add_comm] at hroom)
        have hu := readUint_toBytes hn0 hroom₂ (by rw [input_advance]; exact take_drop_of_take hin)
        simp only [readKind, hb, h80, hB8, hC0, if_false, if_true, hsub]
        simp only [show UInt8.toNat 0xB7 = 183 from rfl, Nat.add_sub_cancel_left, hu, except_ok_bind,
          if_neg h56, except_pure, advance_advance, List.length_cons, Nat.add_comm 1]
  | list =>
      by_cases h56 : n < 56
      · simp only [tag, header, h56, if_true] at hroom hin ⊢
        have ht := toNat_add_ofNat (show (0xC0 : UInt8).toNat + n < 256 by simp only [UInt8.toNat_ofNat, Nat.reducePow, Nat.reduceMod]; omega)
        have hb : s.readByte = .ok (0xC0 + UInt8.ofNat n, s.advance 1) :=
          readByte_eq_ok_iff.mpr ⟨hroom, head_of_take hin, rfl⟩
        have h80 : ¬ 0xC0 + UInt8.ofNat n < 0x80 := by simp only [UInt8.lt_iff_toNat_lt, ht, UInt8.toNat_ofNat, Nat.reducePow, Nat.reduceMod]; omega
        have hB8 : ¬ 0xC0 + UInt8.ofNat n < 0xB8 := by simp only [UInt8.lt_iff_toNat_lt, ht, UInt8.toNat_ofNat, Nat.reducePow, Nat.reduceMod]; omega
        have hC0 : ¬ 0xC0 + UInt8.ofNat n < 0xC0 := by simp only [UInt8.lt_iff_toNat_lt, ht, UInt8.toNat_ofNat, Nat.reducePow, Nat.reduceMod]; omega
        have hF8 : 0xC0 + UInt8.ofNat n < 0xF8 := by simp only [UInt8.lt_iff_toNat_lt, ht, UInt8.toNat_ofNat, Nat.reducePow, Nat.reduceMod]; omega
        have hsub := (add_ofNat_sub hC0).2
        rw [ht] at hsub
        simp only [readKind, hb, h80, hB8, hC0, hF8, if_false, if_true, List.length_singleton, hsub]
        simp only [show UInt8.toNat 0xC0 = 192 from rfl, Nat.add_sub_cancel_left, except_pure]
      · have hn0 : n ≠ 0 := by omega
        have hk : (toBytes n).length ≤ 8 := length_toBytes_le_iff.mpr (lt_of_lt_of_eq hkn (by norm_num))
        have hk1 : 1 ≤ (toBytes n).length := Nat.pos_of_ne_zero fun h =>
          hn0 (toBytes_eq_nil_iff.mp (List.length_eq_zero_iff.mp h))
        simp only [tag, header, h56, if_false] at hroom hin ⊢
        have ht := toNat_add_ofNat (show (0xF7 : UInt8).toNat + (toBytes n).length < 256 by simp only [UInt8.toNat_ofNat, Nat.reducePow, Nat.reduceMod]; omega)
        have hb : s.readByte = .ok (0xF7 + UInt8.ofNat (toBytes n).length, s.advance 1) :=
          readByte_eq_ok_iff.mpr ⟨hroom.mono (by simp), head_of_take hin, rfl⟩
        have h80 : ¬ 0xF7 + UInt8.ofNat (toBytes n).length < 0x80 := by
          simp only [UInt8.lt_iff_toNat_lt, ht, UInt8.toNat_ofNat, Nat.reducePow, Nat.reduceMod]; omega
        have hB8 : ¬ 0xF7 + UInt8.ofNat (toBytes n).length < 0xB8 := by
          simp only [UInt8.lt_iff_toNat_lt, ht, UInt8.toNat_ofNat, Nat.reducePow, Nat.reduceMod]; omega
        have hC0 : ¬ 0xF7 + UInt8.ofNat (toBytes n).length < 0xC0 := by
          simp only [UInt8.lt_iff_toNat_lt, ht, UInt8.toNat_ofNat, Nat.reducePow, Nat.reduceMod]; omega
        have hF8 : ¬ 0xF7 + UInt8.ofNat (toBytes n).length < 0xF8 := by
          simp only [UInt8.lt_iff_toNat_lt, ht, UInt8.toNat_ofNat, Nat.reducePow, Nat.reduceMod]; omega
        have hsub := (add_ofNat_sub (show ¬ 0xF7 + UInt8.ofNat (toBytes n).length < 0xF7 by
          simp only [UInt8.lt_iff_toNat_lt, ht, UInt8.toNat_ofNat, Nat.reducePow, Nat.reduceMod]
          omega)).2
        rw [ht] at hsub
        have hroom₂ : (s.advance 1).Room (toBytes n).length := Room.advance (by
          rw [List.length_cons] at hroom; rwa [Nat.add_comm] at hroom)
        have hu := readUint_toBytes hn0 hroom₂ (by rw [input_advance]; exact take_drop_of_take hin)
        simp only [readKind, hb, h80, hB8, hC0, hF8, if_false, hsub]
        simp only [show UInt8.toNat 0xF7 = 247 from rfl, Nat.add_sub_cancel_left, hu, except_ok_bind,
          if_neg h56, except_pure, advance_advance, List.length_cons, Nat.add_comm 1]

/-! ## `Kind`, `Bytes`, `List` and `ListEnd` -/

/-- The stream after a tag of `c` bytes was read by `Kind`, its result cached. -/
def cached (s : Stream) (c : ℕ) (kn : Kind × ℕ) : Stream := { s.advance c with kind := some kn }

theorem advance_zero {s : Stream} (hk : s.kind = none) : s.advance 0 = s := by
  rw [advance_zero_eq, ← hk]

theorem kindOf_eol {s : Stream} (hk : s.kind = none) (h0 : s.stack.head? = some 0) :
    s.kindOf = .error .eol := by
  simp [kindOf, hk, h0]

theorem kindOf_cached {s : Stream} {kn : Kind × ℕ} (hk : s.kind = some kn) : s.kindOf = .ok (kn, s) := by
  simp [kindOf, hk]

/-- `Kind` with nothing cached reads a tag, and never returns `EOL` but at the
end of a list. -/
theorem kindOf_sound {s s' : Stream} {kn : Kind × ℕ} (hk : s.kind = none)
    (h : s.kindOf = .ok (kn, s')) :
    Tagged kn ∧ s.Room (tag kn).length ∧ s.input.take (tag kn).length = tag kn ∧
      s.cached (tag kn).length kn = s' := by
  simp only [kindOf, hk] at h
  split_ifs at h with h0
  rw [except_bind_eq_ok] at h
  obtain ⟨⟨kn', s₁⟩, hr, h⟩ := h
  obtain ⟨htag, hroom, htake, rfl⟩ := readKind_sound hr
  dsimp only at h
  split_ifs at h
  simp only [except_pure, Except.ok.injEq, Prod.mk.injEq] at h
  obtain ⟨rfl, rfl⟩ := h
  exact ⟨htag, hroom, htake, rfl⟩

theorem length_tag_pos (kn : Kind × ℕ) : 0 < (tag kn).length := by
  obtain ⟨k, n⟩ := kn
  cases k <;> simp [tag, headsize] <;> split_ifs <;> omega

theorem kindOf_kind {s s' : Stream} {kn : Kind × ℕ} (h : s.kindOf = .ok (kn, s')) : s'.kind = some kn := by
  unfold kindOf at h
  rcases hk : s.kind with _ | kn'
  · simp only [hk] at h
    split_ifs at h with h0
    rw [except_bind_eq_ok] at h
    obtain ⟨⟨kn', s₁⟩, -, h⟩ := h
    dsimp only at h
    split_ifs at h
    simp only [except_pure, Except.ok.injEq, Prod.mk.injEq] at h
    obtain ⟨rfl, rfl⟩ := h
    rfl
  · simp only [hk, except_pure, Except.ok.injEq, Prod.mk.injEq] at h
    obtain ⟨rfl, rfl⟩ := h
    exact hk

/-- `Kind` reads a tag whose value fits the enclosing list and the input. -/
theorem kindOf_tag {s : Stream} {kn : Kind × ℕ} (hk : s.kind = none) (htag : Tagged kn)
    (hroom : s.Room ((tag kn).length + kn.2)) (htake : s.input.take (tag kn).length = tag kn) :
    s.kindOf = .ok (kn, s.cached (tag kn).length kn) := by
  have hpos := length_tag_pos kn
  have h0 : s.stack.head? ≠ some 0 := fun h => by
    have := hroom.1.1 0 h
    omega
  have hr := readKind_tag htag (hroom.mono (Nat.le_add_right _ _)) htake
  have hlimit : ¬ ∃ limit ∈ s.stack.head?, kn.2 > limit := by
    rintro ⟨limit, hl, hgt⟩
    have := hroom.1.1 limit hl
    omega
  have hrem : ¬ ((s.advance (tag kn).length).limited ∧ kn.2 > (s.advance (tag kn).length).remaining) := by
    rintro ⟨hl, hgt⟩
    have := hroom.1.2 hl
    simp only [Stream.advance, charge] at hl hgt
    simp only [hl, if_true] at hgt
    omega
  simp only [kindOf, hk, if_neg h0, hr, except_ok_bind, if_neg hlimit, if_neg hrem]
  rfl

theorem lt_0x80_iff (x : UInt8) : x < 0x80 ↔ x ≤ 0x7F := by
  rw [UInt8.lt_iff_toNat_lt, UInt8.le_iff_toNat_le]
  simp only [UInt8.toNat_ofNat, Nat.reducePow, Nat.reduceMod]
  omega

theorem take_append_split {l a b : List UInt8} (h : l.take (a.length + b.length) = a ++ b) :
    l.take a.length = a ∧ (l.drop a.length).take b.length = b := by
  rw [List.take_add] at h
  have hlen : (l.take a.length).length = a.length := by
    have := congrArg List.length h
    simp only [List.length_append, List.length_take, List.length_drop] at this
    simp only [List.length_take]
    omega
  exact List.append_inj h hlen

theorem Room.cached {s : Stream} {c n : ℕ} {kn : Kind × ℕ} :
    (s.cached c kn).Room n ↔ (s.advance c).Room n := Iff.rfl

theorem cached_advance (s : Stream) (c n : ℕ) (kn : Kind × ℕ) :
    (s.cached c kn).advance n = s.advance (c + n) := by
  rw [← advance_advance]
  rfl

/-- `Bytes` after `Kind` reads the cached kind. -/
theorem bytes_of_kindOf {s s₁ : Stream} {kn : Kind × ℕ} (h : s.kindOf = .ok (kn, s₁)) :
    s₁.bytes = s.bytes := by
  simp only [bytes, h, kindOf_cached (kindOf_kind h), except_ok_bind]

/-- What `Bytes` accepts is the encoding of the bytes it returns. -/
theorem bytes_sound {s s' : Stream} {b : List UInt8} (hk : s.kind = none) (h : s.bytes = .ok (b, s')) :
    ∃ c, s.Room c ∧ s.input.take c = (Item.str b).encode ∧ s.advance c = s' := by
  unfold bytes at h
  rw [except_bind_eq_ok] at h
  obtain ⟨⟨kn, s₁⟩, hkind, h⟩ := h
  obtain ⟨htag, hroom, htake, rfl⟩ := kindOf_sound hk hkind
  obtain ⟨k, n⟩ := kn
  cases k with
  | byte x =>
      simp only [except_pure, Except.ok.injEq, Prod.mk.injEq] at h
      obtain ⟨rfl, rfl⟩ := h
      obtain ⟨hx, rfl⟩ := htag
      have hsingle : singleByte [x] = true := by simpa [singleByte] using (lt_0x80_iff x).mp hx
      exact ⟨1, hroom, by simpa [tag, Item.encode, hsingle] using htake, rfl⟩
  | string =>
      dsimp only at h
      rw [except_bind_eq_ok] at h
      obtain ⟨⟨content, s₂⟩, hfull, h⟩ := h
      obtain ⟨hroom₂, rfl, rfl⟩ := readFull_eq_ok_iff.mp hfull
      dsimp only at h
      split_ifs at h with hcanon
      simp only [except_pure, Except.ok.injEq, Prod.mk.injEq] at h
      obtain ⟨rfl, rfl⟩ := h
      have hlen : ((s.cached (tag (.string, n)).length (.string, n)).input.take n).length = n := by
        simpa [Stream.cached] using hroom₂.2
      -- a single byte below `0x80` would have been its own encoding
      have hsingle : singleByte ((s.cached (tag (.string, n)).length (.string, n)).input.take n) = false := by
        revert hcanon hlen
        generalize (s.cached (tag (.string, n)).length (.string, n)).input.take n = content
        intro hcanon hlen
        match content, hlen with
        | [x], rfl =>
            have hx : ¬ x < 128 := fun h => hcanon ⟨rfl, x, rfl, h⟩
            simpa [singleByte] using mt (lt_0x80_iff x).mpr hx
        | [], _ => rfl
        | _ :: _ :: _, _ => rfl
      refine ⟨(tag (.string, n)).length + n, hroom.add hroom₂, ?_, (cached_advance _ _ _ _).symm⟩
      rw [Item.encode, hsingle, if_neg Bool.false_ne_true, hlen, List.take_add, htake]
      rfl
  | list => simp at h

/-- `Bytes` reads back the encoding of a byte string. -/
theorem bytes_encode {s : Stream} {b : List UInt8} (hk : s.kind = none) (hb : b.length < 2 ^ 64)
    (hroom : s.Room (Item.str b).encode.length)
    (htake : s.input.take (Item.str b).encode.length = (Item.str b).encode) :
    s.bytes = .ok (b, s.advance (Item.str b).encode.length) := by
  by_cases hsingle : singleByte b = true
  · -- one byte below `0x80`: its own tag
    obtain ⟨x, rfl⟩ : ∃ x, b = [x] := by
      match b, hsingle with
      | [x], _ => exact ⟨x, rfl⟩
    have hx : x < 0x80 := by
      simp only [singleByte, decide_eq_true_eq] at hsingle
      exact (lt_0x80_iff x).mpr hsingle
    simp only [Item.encode, hsingle, if_true] at hroom htake ⊢
    have hkind := @kindOf_tag s (.byte x, 0) hk ⟨hx, rfl⟩ hroom htake
    simp only [bytes, hkind, except_ok_bind]
    rfl
  · simp only [Item.encode, hsingle, Bool.false_eq_true, if_false, List.length_append] at hroom htake ⊢
    obtain ⟨htag, hcontent⟩ := take_append_split htake
    have hkind := @kindOf_tag s (.string, b.length) hk hb hroom htag
    have hfull : (s.cached (header 0x80 0xB7 b.length).length (.string, b.length)).readFull b.length =
        .ok (b, s.advance ((header 0x80 0xB7 b.length).length + b.length)) := by
      rw [readFull_eq_ok_iff]
      exact ⟨Room.advance hroom, hcontent, cached_advance _ _ _ _⟩
    have hcanon : ¬ (b.length = 1 ∧ ∃ x ∈ b.head?, x < 128) := by
      rintro ⟨hone, x, hx, hlt⟩
      obtain ⟨y, rfl⟩ := List.length_eq_one_iff.mp hone
      simp only [List.head?_cons, Option.mem_def, Option.some.injEq] at hx
      subst hx
      exact hsingle (by simpa [singleByte] using (lt_0x80_iff y).mp hlt)
    simp only [bytes, tag] at hkind ⊢
    simp only [hkind, except_ok_bind, hfull, if_neg hcanon]
    rfl

/-! ## `uint` -/

theorem ofBytes_cons_cons (x y : UInt8) (bs : List UInt8) (hx : x ≠ 0) : 256 ≤ BigEndian.ofBytes (x :: y :: bs) := by
  have hlen : (toBytes (BigEndian.ofBytes (x :: y :: bs))).length = bs.length + 2 := by
    rw [toBytes_ofBytes (by simpa using hx)]
    rfl
  by_contra h
  have := length_toBytes_le_iff.mpr (show BigEndian.ofBytes (x :: y :: bs) < 256 ^ 1 by omega)
  omega

/-- A number read from bytes without a leading zero is below `128` only as a
single byte below `128`: the case `Bytes` rejects as non-canonical. -/
theorem ofBytes_lt_128_iff {b : List UInt8} (hlead : ∀ x ∈ b.head?, x ≠ 0) :
    (0 < b.length ∧ BigEndian.ofBytes b < 128) ↔ (b.length = 1 ∧ ∃ x ∈ b.head?, x < 128) := by
  match b with
  | [] => simp
  | [x] => simp [ofBytes_singleton, UInt8.lt_iff_toNat_lt]
  | x :: y :: bs =>
      have := ofBytes_cons_cons x y bs (hlead x rfl)
      simp only [List.length_cons]
      omega

theorem lead_of_canon {b : List UInt8} (hlead : 2 ≤ b.length → b.head? ≠ some 0)
    (hcanon : ¬ (0 < b.length ∧ BigEndian.ofBytes b < 128)) : ∀ x ∈ b.head?, x ≠ 0 := by
  match b with
  | [] => simp
  | [x] =>
      intro z hz hz0
      simp only [List.head?_cons, Option.mem_def, Option.some.injEq] at hz
      subst hz hz0
      exact hcanon ⟨by simp, by simp [ofBytes_singleton]⟩
  | x :: y :: bs =>
      intro z hz hz0
      simp only [List.head?_cons, Option.mem_def, Option.some.injEq] at hz
      subst hz hz0
      exact hlead (by simp) rfl

/-- `uint` reads what `Bytes` reads, when that is the shortest encoding of a
number that fits in `maxbits`. -/
theorem uint_eq_ok_iff {s s' : Stream} {maxbits n : ℕ} (h8 : 8 ≤ maxbits) :
    s.uint maxbits = .ok (n, s') ↔ (toBytes n).length ≤ maxbits / 8 ∧ s.bytes = .ok (toBytes n, s') := by
  unfold uint bytes
  rcases hkind : s.kindOf with e | ⟨⟨k, size⟩, s₁⟩
  · simp
  simp only [except_ok_bind]
  cases k with
  | byte x =>
      -- a single byte below `0x80` is its own number, and zero is not canonical
      have hbyte : [x] = toBytes n ↔ x ≠ 0 ∧ x.toNat = n := by
        rw [eq_comm, toBytes_eq_iff, ofBytes_singleton]
        simp
      by_cases hx : x = 0
      · simp only [hx, if_true, except_throw, reduceCtorEq, false_iff, not_and, except_pure,
          Except.ok.injEq, Prod.mk.injEq]
        exact fun _ h _ => head_toBytes_ne_zero n 0 (by rw [← h]; rfl) rfl
      · simp only [hx, if_false, except_pure, Except.ok.injEq, Prod.mk.injEq, hbyte, ne_eq,
          not_false_eq_true, true_and]
        constructor
        · rintro ⟨rfl, rfl⟩
          rw [toBytes_eq_iff.mpr ⟨by simpa using hx, ofBytes_singleton x⟩, List.length_singleton]
          exact ⟨by omega, rfl, rfl⟩
        · rintro ⟨-, h⟩
          exact h
  | string =>
      dsimp only
      constructor
      · intro h
        split_ifs at h with hover
        rcases hu : s₁.readUint size with e | ⟨v, s₂⟩ <;> rw [hu] at h
        · split at h <;> simp_all
        dsimp only at h
        split_ifs at h with hcanon
        simp only [except_pure, Except.ok.injEq, Prod.mk.injEq] at h
        obtain ⟨rfl, rfl⟩ := h
        obtain ⟨b, hfull, hlead, rfl⟩ := readUint_eq_ok_iff_readFull.mp hu
        have hlen : b.length = size := by
          obtain ⟨hroom, rfl, -⟩ := readFull_eq_ok_iff.mp hfull
          simpa using hroom.2
        have hl := lead_of_canon (hlen ▸ hlead) (hlen ▸ hcanon)
        rw [toBytes_ofBytes hl, hfull, except_ok_bind, if_neg (hlen ▸ mt (ofBytes_lt_128_iff hl).mpr (hlen ▸ hcanon))]
        exact ⟨by omega, rfl⟩
      · rintro ⟨hle, h⟩
        rw [except_bind_eq_ok] at h
        obtain ⟨⟨b, s₂⟩, hfull, h⟩ := h
        dsimp only at h
        split_ifs at h with hc
        simp only [except_pure, Except.ok.injEq, Prod.mk.injEq] at h
        obtain ⟨rfl, rfl⟩ := h
        have hlen : (toBytes n).length = size := by
          obtain ⟨hroom, h, -⟩ := readFull_eq_ok_iff.mp hfull
          rw [← h]
          simpa using hroom.2
        have hu : s₁.readUint size = .ok (n, s₂) :=
          readUint_eq_ok_iff_readFull.mpr ⟨_, hfull, fun _ => by
            have := head_toBytes_ne_zero n
            intro h0
            exact this 0 h0 rfl, ofBytes_toBytes n⟩
        have hcanon : ¬ (size > 0 ∧ n < 128) := fun h' => hc (hlen ▸
          (ofBytes_lt_128_iff (head_toBytes_ne_zero n)).mp ⟨by omega, by rw [ofBytes_toBytes]; exact h'.2⟩)
        rw [if_neg (by omega), hu]
        dsimp only
        rw [if_neg hcanon]
        rfl
  | list => simp

/-- The stream after `List` entered a list of `size` bytes. -/
def enter (s : Stream) (size : ℕ) : Stream :=
  { s with
    stack := size :: match s.stack with
      | [] => []
      | limit :: rest => wrapSub limit size :: rest
    kind := none }

theorem list_of_kindOf {s s₁ : Stream} {size : ℕ} (h : s.kindOf = .ok ((.list, size), s₁)) :
    s₁.list = .ok (size, s₁.enter size) := by
  simp only [list, kindOf_cached (kindOf_kind h), except_ok_bind]
  rfl

theorem readFull_zero (s : Stream) : s.readFull 0 = .ok ([], { s with kind := none }) := by
  rw [readFull_eq_ok_iff, advance_zero_eq]
  exact ⟨room_zero s, List.take_zero, rfl⟩

/-- `Kind` after `Kind` returns the cached kind. -/
theorem kindOf_of_kindOf {s s₁ : Stream} {kn : Kind × ℕ} (h : s.kindOf = .ok (kn, s₁)) :
    s₁.kindOf = s.kindOf := by
  rw [kindOf_cached (kindOf_kind h), h]

theorem list_of_kindOf_eq {s s₁ : Stream} {kn : Kind × ℕ} (h : s.kindOf = .ok (kn, s₁)) : s₁.list = s.list := by
  simp only [list, kindOf_of_kindOf h]

theorem listEnd_eq_ok_iff {s s' : Stream} :
    s.listEnd = .ok s' ↔ ∃ rest, s.stack = 0 :: rest ∧ { s with stack := rest, kind := none } = s' := by
  unfold listEnd
  rcases hs : s.stack with _ | ⟨limit, rest⟩
  · simp
  · by_cases hl : limit > 0
    · simp only [hl, if_true, except_throw, reduceCtorEq, false_iff]
      rintro ⟨rest', h, -⟩
      simp only [List.cons.injEq] at h
      omega
    · simp only [hl, if_false, except_pure, Except.ok.injEq, List.cons.injEq]
      constructor
      · rintro rfl
        exact ⟨rest, ⟨by omega, rfl⟩, rfl⟩
      · rintro ⟨rest', ⟨-, rfl⟩, h⟩
        exact h

/-- The stack entries are `uint64` values. -/
def Bounded (s : Stream) : Prop := ∀ t ∈ s.stack, t < 2 ^ 64

theorem wrapSub_lt (a b : ℕ) : wrapSub a b < 2 ^ 64 := Nat.mod_lt _ (by norm_num)

theorem wrapSub_of_le {a b : ℕ} (hb : b ≤ a) (ha : a < 2 ^ 64) : wrapSub a b = a - b := by
  unfold wrapSub
  omega

/-- The stream after `c` bytes were read, the innermost list's size reduced
as a `uint64`. -/
def consume (s : Stream) (c : ℕ) : Stream :=
  { s with
    input := s.input.drop c
    remaining := if s.limited then s.remaining - c else s.remaining
    stack := match s.stack with
      | [] => []
      | limit :: rest => wrapSub limit c :: rest
    kind := none }

theorem advance_eq_consume {s : Stream} {c : ℕ} (hb : s.Bounded) (hc : ∀ t ∈ s.stack.head?, c ≤ t) :
    s.advance c = s.consume c := by
  rcases s with ⟨input, remaining, limited, _ | ⟨limit, rest⟩, kind⟩
  · rfl
  · have hlt := hb limit (by simp)
    have hle := hc limit (by simp)
    simp only [Stream.advance, charge, consume, wrapSub_of_le hle hlt]

theorem consume_zero {s : Stream} (hk : s.kind = none) (hb : s.Bounded) : s.consume 0 = s := by
  rcases s with ⟨input, remaining, limited, _ | ⟨limit, rest⟩, kind⟩
  · simp_all [consume]
  · have hlimit : wrapSub limit 0 = limit := wrapSub_of_le (Nat.zero_le _) (hb limit (by simp))
    simp_all [consume]

theorem consume_consume {s : Stream} {a c : ℕ} (hb : s.Bounded) (hac : a + c ≤ 2 ^ 64) :
    (s.consume a).consume c = s.consume (a + c) := by
  rcases s with ⟨input, remaining, limited, _ | ⟨limit, rest⟩, kind⟩ <;> cases limited <;>
    simp only [consume, List.drop_drop, Nat.sub_sub, Bool.false_eq_true, if_false, if_true,
      Stream.mk.injEq, List.cons.injEq, and_true, true_and]
  all_goals
    have := hb limit (by simp)
    simp only [wrapSub]
    omega

theorem Bounded.consume {s : Stream} (hb : s.Bounded) (c : ℕ) : (s.consume c).Bounded := by
  rcases s with ⟨input, remaining, limited, _ | ⟨limit, rest⟩, kind⟩
  · simp [Bounded, Stream.consume]
  · intro t ht
    simp only [Stream.consume, List.mem_cons] at ht
    rcases ht with rfl | ht
    · exact wrapSub_lt _ _
    · exact hb t (by simp [ht])

theorem Bounded.advance {s : Stream} (hb : s.Bounded) (c : ℕ) : (s.advance c).Bounded := by
  rcases s with ⟨input, remaining, limited, _ | ⟨limit, rest⟩, kind⟩
  · simp [Bounded, Stream.advance, charge]
  · intro t ht
    simp only [Stream.advance, charge, List.mem_cons] at ht
    rcases ht with rfl | ht
    · have := hb limit (by simp)
      omega
    · exact hb t (by simp [ht])

theorem Bounded.enter {s : Stream} (hb : s.Bounded) {size : ℕ} (hsize : size < 2 ^ 64) :
    (s.enter size).Bounded := by
  rcases s with ⟨input, remaining, limited, _ | ⟨limit, rest⟩, kind⟩
  · simpa [Bounded, Stream.enter] using hsize
  · intro t ht
    simp only [Stream.enter, List.mem_cons] at ht
    rcases ht with rfl | rfl | ht
    · exact hsize
    · exact wrapSub_lt _ _
    · exact hb t (by simp [ht])

/-- Leaving a list whose content was read in full: the enclosing list has
lost exactly the list's size. -/
theorem listEnd_enter_advance {s : Stream} {size : ℕ} (hb : s.Bounded)
    (hsize : ∀ t ∈ s.stack.head?, size ≤ t) :
    ((s.enter size).advance size).listEnd = .ok (s.advance size) := by
  rw [listEnd_eq_ok_iff]
  rcases s with ⟨input, remaining, limited, _ | ⟨limit, rest⟩, kind⟩
  · exact ⟨[], by simp [Stream.enter, Stream.advance, charge], rfl⟩
  · have hlt := hb limit (by simp)
    have hle := hsize limit (by simp)
    refine ⟨[limit - size] ++ rest, by simp [Stream.enter, Stream.advance, charge,
      wrapSub_of_le hle hlt], rfl⟩

theorem consume_cached (s : Stream) (c n : ℕ) (kn : Kind × ℕ) :
    (s.cached c kn).consume n = (s.advance c).consume n := rfl

theorem wrapSub_eq_zero {a b : ℕ} (ha : a < 2 ^ 64) (hb : b < 2 ^ 64) (h : wrapSub a b = 0) : a = b := by
  unfold wrapSub at h
  omega

/-- `ListEnd` after reading `c` bytes of a list of `size` bytes succeeds only
if `c` is the size: the list's remaining size is a `uint64`. -/
theorem listEnd_enter_consume {s s' : Stream} {size c : ℕ} (hsize : size < 2 ^ 64)
    (hc : c < 2 ^ 64) (h : ((s.enter size).consume c).listEnd = .ok s') :
    c = size ∧ s' = s.consume size := by
  obtain ⟨rest, hstack, rfl⟩ := listEnd_eq_ok_iff.mp h
  simp only [consume, enter, List.cons.injEq] at hstack
  obtain ⟨hzero, rfl⟩ := hstack
  obtain rfl := (wrapSub_eq_zero hsize hc hzero).symm
  exact ⟨rfl, rfl⟩

theorem head_advance {s : Stream} {t : ℕ} (h : s.stack.head? = some t) (c : ℕ) :
    (s.advance c).stack.head? = some (t - c) := by
  rcases s with ⟨input, remaining, limited, _ | ⟨limit, rest⟩, kind⟩ <;>
    simp_all [Stream.advance, charge]

theorem Room.enter {s : Stream} {size : ℕ} (h : s.Room size) : (s.enter size).Room size :=
  ⟨⟨fun t ht => by simp [Stream.enter] at ht; omega, h.1.2⟩, h.2⟩

end Stream

end GoQuai.Rlp
