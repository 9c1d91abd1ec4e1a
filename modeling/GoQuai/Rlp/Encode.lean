import GoQuai.Lib.BigEndian

/-! # The RLP encoder

`rlp/encode.go`. An RLP value is a byte string or a list of values; its
encoding (`Item.encode`) is the recursive one of the Ethereum yellow paper.
The encoder does not write it in one pass: `encbuf` appends string data to
`str` and, for every list, records a `listhead` holding the offset in `str`
where the list's header goes; `listEnd` fills in the list's payload size once
its content is written, and `toBytes`, `toWriter` and `encReader` splice the
headers back into the string data.

`Writes f b` says that the write `f` appends the bytes `b` once the headers
are spliced in; the writers of `rlp/encode.go` are proved against the
reference encoding through it.
-/

namespace GoQuai.Rlp

open GoQuai.BigEndian

/-- An RLP value. -/
inductive Item
  | str (bytes : List UInt8)
  | list (items : List Item)

/-- A byte string that is its own encoding: one byte below `0x80`. -/
def singleByte : List UInt8 → Bool
  | [x] => decide (x ≤ 0x7F)
  | _ => false

/-- The header of a string (`0x80`, `0xB7`) or list (`0xC0`, `0xF7`) whose
payload is `n` bytes long. -/
def header (small large : UInt8) (n : ℕ) : List UInt8 :=
  if n < 56 then [small + UInt8.ofNat n] else (large + UInt8.ofNat (toBytes n).length) :: toBytes n

mutual
/-- The RLP encoding of a value. -/
def Item.encode : Item → List UInt8
  | .str b => if singleByte b then b else header 0x80 0xB7 b.length ++ b
  | .list xs => header 0xC0 0xF7 (encodeList xs).length ++ encodeList xs

/-- The concatenated encodings of a list's elements: its payload. -/
def encodeList : List Item → List UInt8
  | [] => []
  | x :: xs => x.encode ++ encodeList xs
end

/-! ## `encbuf` -/

/-- `putint`: `i` in big-endian order in the least number of bytes (one byte
for zero). -/
def putint (i : ℕ) : List UInt8 := if i = 0 then [0] else toBytes i

/-- `intsize`: the number of bytes `putint` writes. -/
def intsize (i : ℕ) : ℕ := (putint i).length

/-- `headsize`. -/
def headsize (size : ℕ) : ℕ := if size < 56 then 1 else 1 + intsize size

/-- `puthead`. -/
def puthead (smalltag largetag : UInt8) (size : ℕ) : List UInt8 :=
  if size < 56 then [smalltag + UInt8.ofNat size]
  else (largetag + UInt8.ofNat (intsize size)) :: putint size

/-- `listhead`: where a list's header goes in the string data, and its size
(while the list is open, the header bytes written before it). -/
structure Listhead where
  offset : ℕ
  size : ℕ

/-- `listhead.encode`. -/
def Listhead.encode (head : Listhead) : List UInt8 := puthead 0xC0 0xF7 head.size

/-- `encbuf`. -/
structure Encbuf where
  str : List UInt8
  lheads : List Listhead
  lhsize : ℕ

namespace Encbuf

/-- An `encbuf` after `reset`. -/
def reset : Encbuf := ⟨[], [], 0⟩

/-- `Write`. -/
def write (w : Encbuf) (b : List UInt8) : Encbuf := { w with str := w.str ++ b }

/-- `encodeStringHeader`. -/
def encodeStringHeader (w : Encbuf) (size : ℕ) : Encbuf :=
  if size < 56 then w.write [0x80 + UInt8.ofNat size]
  else w.write ((0xB7 + UInt8.ofNat (intsize size)) :: putint size)

/-- `encodeString`. -/
def encodeString (w : Encbuf) (b : List UInt8) : Encbuf :=
  if singleByte b then w.write b else (w.encodeStringHeader b.length).write b

/-- `encodeUint`. -/
def encodeUint (w : Encbuf) (i : ℕ) : Encbuf :=
  if i = 0 then w.write [0x80]
  else if i < 128 then w.write [UInt8.ofNat i]
  else w.write ((0x80 + UInt8.ofNat (intsize i)) :: putint i)

/-- `size`: string data and list headers. -/
def size (w : Encbuf) : ℕ := w.str.length + w.lhsize

/-- `list`: open a list at the end of the string data, and its index. -/
def list (w : Encbuf) : ℕ × Encbuf :=
  (w.lheads.length, { w with lheads := w.lheads ++ [⟨w.str.length, w.lhsize⟩] })

/-- `listEnd`: the list's size is what was written since it was opened. The
index always comes from `list`, so the lookup never misses. -/
def listEnd (w : Encbuf) (index : ℕ) : Encbuf :=
  match w.lheads[index]? with
  | none => w
  | some lh =>
      let size := w.size - lh.offset - lh.size
      { w with
        lheads := w.lheads.set index { lh with size := size }
        lhsize := w.lhsize + if size < 56 then 1 else 1 + intsize size }

/-- The loop of `toBytes` from string position `strpos`: the string data up to
each header, then the header. -/
def toBytesLoop (str : List UInt8) : ℕ → List Listhead → List UInt8
  | strpos, [] => str.drop strpos
  | strpos, head :: heads =>
      let piece := (str.drop strpos).take (head.offset - strpos)
      piece ++ head.encode ++ toBytesLoop str (strpos + piece.length) heads

-- Generate the equation lemmas of these definitions once, here, rather than in
-- each of the proofs below that unfold them while they are elaborated in parallel.
section
attribute [local simp] singleByte Item.encode encodeList toBytesLoop
end

/-- `toBytes`. -/
def toBytes (w : Encbuf) : List UInt8 := toBytesLoop w.str 0 w.lheads

/-- The writes of `toWriter` from string position `strpos`. -/
def toWriterLoop (str : List UInt8) : ℕ → List Listhead → List (List UInt8)
  | strpos, [] => if strpos < str.length then [str.drop strpos] else []
  | strpos, head :: heads =>
      if strpos < head.offset then
        (str.drop strpos).take (head.offset - strpos) :: head.encode ::
          toWriterLoop str head.offset heads
      else head.encode :: toWriterLoop str strpos heads

/-- `toWriter`: the byte slices it writes, in order. -/
def toWriter (w : Encbuf) : List (List UInt8) := toWriterLoop w.str 0 w.lheads

end Encbuf

/-! ## Headers -/

theorem putint_eq_toBytes {i : ℕ} (hi : i ≠ 0) : putint i = toBytes i := by
  simp [putint, hi]

theorem puthead_eq_header (small large : UInt8) (size : ℕ) :
    puthead small large size = header small large size := by
  unfold puthead header intsize
  split_ifs with h
  · rfl
  · rw [putint_eq_toBytes (by omega)]

@[simp] theorem length_header (small large : UInt8) (n : ℕ) :
    (header small large n).length = headsize n := by
  unfold header headsize intsize
  split_ifs with h
  · rfl
  · simp [putint_eq_toBytes (show n ≠ 0 by omega), Nat.add_comm]

theorem encodeStringHeader_eq (w : Encbuf) (size : ℕ) :
    w.encodeStringHeader size = w.write (header 0x80 0xB7 size) := by
  rw [← puthead_eq_header]
  unfold Encbuf.encodeStringHeader puthead
  split_ifs <;> rfl

/-! ## Splicing headers into the string data

A run of writes leaves its headers in offset order, each at or after the
previous one and within the string data; `toBytesLoop` then cuts the string
data at the offsets. -/

/-- Offsets from `strpos` on, in order, and at most `n`. -/
def Ordered (strpos n : ℕ) : List Listhead → Prop
  | [] => True
  | head :: heads => strpos ≤ head.offset ∧ head.offset ≤ n ∧ Ordered head.offset n heads

/-- A header moved `k` bytes further into the string data. -/
def Listhead.shift (k : ℕ) (head : Listhead) : Listhead := { head with offset := head.offset + k }

@[simp] theorem Listhead.map_shift_zero (heads : List Listhead) : heads.map (Listhead.shift 0) = heads := by
  conv_rhs => rw [← List.map_id heads]
  rfl

theorem Listhead.shift_shift (j k : ℕ) (head : Listhead) :
    (head.shift k).shift j = head.shift (j + k) := by
  simp only [Listhead.shift, Listhead.mk.injEq, and_true]
  omega

theorem Ordered.start_le {p q n : ℕ} {heads : List Listhead} (h : Ordered q n heads) (hpq : p ≤ q) :
    Ordered p n heads := by
  cases heads with
  | nil => trivial
  | cons head heads => exact ⟨le_trans hpq h.1, h.2.1, h.2.2⟩

theorem Ordered.shift (k : ℕ) :
    ∀ {q n : ℕ} {heads : List Listhead}, Ordered q n heads →
      Ordered (q + k) (n + k) (heads.map (Listhead.shift k))
  | _, _, [], _ => trivial
  | _, _, head :: heads, ⟨hq, hn, h⟩ => ⟨by simp [Listhead.shift]; omega,
      by simp [Listhead.shift]; omega, h.shift k⟩

theorem Ordered.append {p n m : ℕ} :
    ∀ {heads₁ : List Listhead}, Ordered p n heads₁ → p ≤ n → ∀ {heads₂ : List Listhead},
      Ordered 0 m heads₂ → Ordered p (n + m) (heads₁ ++ heads₂.map (Listhead.shift n))
  | [], _, hp, heads₂, h₂ => by
      have h := h₂.shift n
      rw [Nat.zero_add, Nat.add_comm m] at h
      exact h.start_le hp
  | head :: heads₁, ⟨hq, hn, h₁⟩, _, heads₂, h₂ =>
      ⟨hq, by omega, Ordered.append h₁ hn h₂⟩

/-- The string data of a later write, with its headers shifted past the
earlier data, splices on its own. -/
theorem toBytesLoop_shift (s₁ s₂ : List UInt8) :
    ∀ (q : ℕ) (heads : List Listhead), Ordered q s₂.length heads →
      Encbuf.toBytesLoop (s₁ ++ s₂) (s₁.length + q) (heads.map (Listhead.shift s₁.length)) =
        Encbuf.toBytesLoop s₂ q heads
  | q, [], _ => by simp [Encbuf.toBytesLoop, List.drop_append]
  | q, head :: heads, ⟨hq, hn, h⟩ => by
      have hpiece : ((s₁ ++ s₂).drop (s₁.length + q)).take (head.offset + s₁.length - (s₁.length + q)) =
          (s₂.drop q).take (head.offset - q) := by
        rw [List.drop_append, List.drop_eq_nil_of_le (by omega), List.nil_append,
          Nat.add_sub_cancel_left, show head.offset + s₁.length - (s₁.length + q) = head.offset - q by omega]
      have hlen : ((s₂.drop q).take (head.offset - q)).length = head.offset - q := by
        simp only [List.length_take, List.length_drop]
        omega
      simp only [Encbuf.toBytesLoop, List.map_cons, Listhead.shift, hpiece]
      rw [hlen, show s₁.length + q + (head.offset - q) = s₁.length + head.offset by omega,
        toBytesLoop_shift s₁ s₂ head.offset heads h, show q + (head.offset - q) = head.offset by omega]
      rfl

/-- Splicing two runs of writes one after the other is splicing each. -/
theorem toBytesLoop_append (s₁ s₂ : List UInt8) {heads₂ : List Listhead}
    (h₂ : Ordered 0 s₂.length heads₂) :
    ∀ (p : ℕ) (heads₁ : List Listhead), Ordered p s₁.length heads₁ → p ≤ s₁.length →
      Encbuf.toBytesLoop (s₁ ++ s₂) p (heads₁ ++ heads₂.map (Listhead.shift s₁.length)) =
        Encbuf.toBytesLoop s₁ p heads₁ ++ Encbuf.toBytesLoop s₂ 0 heads₂
  | p, [], _, hp => by
      cases heads₂ with
      | nil => simp [Encbuf.toBytesLoop, List.drop_append_of_le_length hp]
      | cons head heads =>
          -- the first later header cuts the string data at `s₁.length + head.offset`
          obtain ⟨-, hn, h⟩ := h₂
          have hpiece : ((s₁ ++ s₂).drop p).take (head.offset + s₁.length - p) =
              s₁.drop p ++ s₂.take head.offset := by
            rw [List.drop_append_of_le_length hp, List.take_append, List.length_drop,
              List.take_of_length_le (by simp only [List.length_drop]; omega),
              show head.offset + s₁.length - p - (s₁.length - p) = head.offset by omega]
          have hlen : (s₁.drop p ++ s₂.take head.offset).length = s₁.length + head.offset - p := by
            simp only [List.length_append, List.length_drop, List.length_take]
            omega
          simp only [Encbuf.toBytesLoop, List.nil_append, List.map_cons, Listhead.shift, hpiece]
          rw [hlen, show p + (s₁.length + head.offset - p) = s₁.length + head.offset by omega,
            toBytesLoop_shift s₁ s₂ head.offset heads h]
          simp [Listhead.encode, Nat.min_eq_left hn]
  | p, head :: heads₁, ⟨hq, hn, h₁⟩, hp => by
      have hpiece : ((s₁ ++ s₂).drop p).take (head.offset - p) = (s₁.drop p).take (head.offset - p) := by
        rw [List.drop_append_of_le_length hp, List.take_append_of_le_length (by simp; omega)]
      simp only [Encbuf.toBytesLoop, List.cons_append, hpiece, List.append_assoc]
      have hlen : ((s₁.drop p).take (head.offset - p)).length = head.offset - p := by
        simp only [List.length_take, List.length_drop]
        omega
      rw [hlen, show p + (head.offset - p) = head.offset by omega,
        toBytesLoop_append s₁ s₂ h₂ head.offset heads₁ h₁ hn]

/-! ## The writers against the reference encoding

Writing a value appends its string data `S` and its headers `H`, with offsets
relative to where the value starts, and adds its header bytes to `lhsize`;
spliced together, `S` and `H` are the value's encoding. -/

/-- The buffer after a write that appended string data `S`, headers `H`
(relative to the end of the old data) and `k` header bytes. -/
def Encbuf.extend (w : Encbuf) (S : List UInt8) (H : List Listhead) (k : ℕ) : Encbuf :=
  ⟨w.str ++ S, w.lheads ++ H.map (Listhead.shift w.str.length), w.lhsize + k⟩

theorem Encbuf.extend_extend (w : Encbuf) (S₁ S₂ : List UInt8) (H₁ H₂ : List Listhead) (k₁ k₂ : ℕ) :
    (w.extend S₁ H₁ k₁).extend S₂ H₂ k₂ =
      w.extend (S₁ ++ S₂) (H₁ ++ H₂.map (Listhead.shift S₁.length)) (k₁ + k₂) := by
  simp only [extend, List.append_assoc, List.length_append, List.map_append, List.map_map,
    Nat.add_assoc, Encbuf.mk.injEq, true_and, and_true]
  congr 2
  apply List.map_congr_left
  intro head _
  rw [Function.comp_apply, Listhead.shift_shift]

/-- `listEnd` on a list opened before a write: the list's size is the write's
string data and header bytes. -/
theorem Encbuf.listEnd_extend (w : Encbuf) (S : List UInt8) (H : List Listhead) (k : ℕ) :
    ((w.list).2.extend S H k).listEnd (w.list).1 =
      w.extend S (⟨0, S.length + k⟩ :: H) (k + headsize (S.length + k)) := by
  have hsize : ((w.list).2.extend S H k).size - w.str.length - w.lhsize = S.length + k := by
    simp only [size, extend, list, List.length_append]
    omega
  simp only [listEnd, list, extend, List.append_assoc, List.cons_append, List.nil_append,
    List.getElem?_append_right (le_refl _), Nat.sub_self, List.getElem?_cons_zero]
  simp only [list, extend, List.append_assoc, List.cons_append, List.nil_append] at hsize
  rw [hsize, List.set_append_right _ _ (le_refl _), Nat.sub_self, List.set_cons_zero]
  simp only [headsize, List.map_cons, Listhead.shift, Nat.zero_add, Nat.add_assoc]

/-! ## `toWriter` -/

theorem flatten_toWriterLoop (str : List UInt8) :
    ∀ (p : ℕ) (heads : List Listhead), Ordered p str.length heads →
      (Encbuf.toWriterLoop str p heads).flatten = Encbuf.toBytesLoop str p heads
  | p, [], _ => by
      unfold Encbuf.toWriterLoop Encbuf.toBytesLoop
      split_ifs with h
      · simp
      · simp [List.drop_eq_nil_of_le (Nat.le_of_not_lt h)]
  | p, head :: heads, ⟨hp, hn, h⟩ => by
      have hlen : ((str.drop p).take (head.offset - p)).length = head.offset - p := by
        simp only [List.length_take, List.length_drop]
        omega
      unfold Encbuf.toWriterLoop Encbuf.toBytesLoop
      dsimp only
      split_ifs with hlt
      · -- string data before the header, then the header
        rw [List.flatten_cons, List.flatten_cons, flatten_toWriterLoop str head.offset heads h,
          hlen, show p + (head.offset - p) = head.offset by omega, List.append_assoc]
      · -- the header sits right at the current position
        have hoff : head.offset = p := by omega
        rw [List.flatten_cons, hoff, flatten_toWriterLoop str p heads (hoff ▸ h)]
        simp

/-! ## Writes

`Writes f b`: the write `f` appends string data and headers, with offsets
relative to where it starts, and header bytes to `lhsize`, that splice to `b`.
The writers are built from raw writes, `encodeString`, sequencing and
`list`/`listEnd` pairs, and each of these keeps the property. -/

/-- `f` appends the bytes `b` once its list headers are spliced in. -/
def Writes (f : Encbuf → Encbuf) (b : List UInt8) : Prop :=
  ∀ w, ∃ S H, f w = w.extend S H (b.length - S.length) ∧ S.length ≤ b.length ∧
    Ordered 0 S.length H ∧ Encbuf.toBytesLoop S 0 H = b

namespace Writes

variable {f g : Encbuf → Encbuf} {b c : List UInt8}

theorem congr (hf : Writes f b) (h : ∀ w, g w = f w) : Writes g b := fun w => by
  rw [h]
  exact hf w

theorem write (b : List UInt8) : Writes (·.write b) b := fun w =>
  ⟨b, [], by simp [Encbuf.write, Encbuf.extend], le_rfl, trivial, by simp [Encbuf.toBytesLoop]⟩

theorem nil : Writes (fun w => w) [] :=
  (write []).congr fun w => by simp [Encbuf.write]

theorem comp (hf : Writes f b) (hg : Writes g c) : Writes (fun w => g (f w)) (b ++ c) := fun w => by
  obtain ⟨S₁, H₁, hw₁, hle₁, hord₁, hbytes₁⟩ := hf w
  obtain ⟨S₂, H₂, hw₂, hle₂, hord₂, hbytes₂⟩ := hg (f w)
  refine ⟨S₁ ++ S₂, H₁ ++ H₂.map (Listhead.shift S₁.length), ?_, ?_, ?_, ?_⟩
  · show g (f w) = _
    rw [hw₂, hw₁, Encbuf.extend_extend]
    congr 1
    simp only [List.length_append]
    omega
  · simp only [List.length_append]
    omega
  · rw [List.length_append]
    exact hord₁.append (Nat.zero_le _) hord₂
  · rw [toBytesLoop_append S₁ S₂ hord₂ 0 H₁ hord₁ (Nat.zero_le _), hbytes₁, hbytes₂]

/-- A list: `list` opens it, and `listEnd` records the size of what was written
in between as its header. -/
theorem list (hf : Writes f b) :
    Writes (fun w => (f w.list.2).listEnd w.list.1) (header 0xC0 0xF7 b.length ++ b) := fun w => by
  obtain ⟨S, H, hw, hle, hord, hbytes⟩ := hf (w.list).2
  have hk : S.length + (b.length - S.length) = b.length := by omega
  refine ⟨S, ⟨0, b.length⟩ :: H, ?_, ?_, ⟨le_refl 0, Nat.zero_le _, hord⟩, ?_⟩
  · simp only [hw, Encbuf.listEnd_extend, hk, List.length_append, length_header]
    congr 1
    omega
  · simp only [List.length_append]
    omega
  · simp [Encbuf.toBytesLoop, hbytes, Listhead.encode, puthead_eq_header]

theorem encodeString (b : List UInt8) : Writes (·.encodeString b) (Item.str b).encode := by
  refine (write (Item.str b).encode).congr fun w => ?_
  unfold Encbuf.encodeString Item.encode
  split_ifs <;> simp [Encbuf.write, encodeStringHeader_eq]

/-- The deferred list headers land where the reference encoding has them. -/
theorem toBytes_reset (hf : Writes f b) : (f Encbuf.reset).toBytes = b := by
  obtain ⟨S, H, hw, -, -, hbytes⟩ := hf Encbuf.reset
  rw [hw]
  simp [Encbuf.extend, Encbuf.reset, Encbuf.toBytes, hbytes]

theorem ordered_reset (hf : Writes f b) :
    Ordered 0 (f Encbuf.reset).str.length (f Encbuf.reset).lheads := by
  obtain ⟨S, H, hw, -, hord, -⟩ := hf Encbuf.reset
  rw [hw]
  simpa [Encbuf.extend, Encbuf.reset] using hord

/-- `toWriter` writes the bytes `toBytes` returns. -/
theorem toWriter_reset (hf : Writes f b) : (f Encbuf.reset).toWriter.flatten = b :=
  (flatten_toWriterLoop _ 0 _ hf.ordered_reset).trans hf.toBytes_reset

theorem size_reset (hf : Writes f b) : (f Encbuf.reset).size = b.length := by
  obtain ⟨S, H, hw, hle, -, -⟩ := hf Encbuf.reset
  rw [hw]
  simp only [Encbuf.size, Encbuf.extend, Encbuf.reset, List.nil_append, Nat.zero_add]
  omega

end Writes

/-! ## `encReader`

`EncodeToReader` hands out the buffer through `encReader`, whose `next` walks
the same cut points as `toBytes` one piece at a time. -/

/-- `encReader`. `buf` is `none` once `Read` returned EOF, and an empty
`piece` is Go's nil: `next` never returns an empty piece but at EOF. -/
structure EncReader where
  buf : Option Encbuf
  lhpos : ℕ
  strpos : ℕ
  piece : List UInt8

namespace EncReader

/-- `next`: the next piece, and the reader past it. -/
def next (r : EncReader) : List UInt8 × EncReader :=
  match r.buf with
  | none => ([], r)
  | some buf =>
      if r.piece ≠ [] then (r.piece, r)
      else
        match buf.lheads[r.lhpos]? with
        | some head =>
            -- `sizebefore`: string data before the header
            if head.offset - r.strpos > 0 then
              ((buf.str.drop r.strpos).take (head.offset - r.strpos),
                { r with strpos := r.strpos + (head.offset - r.strpos) })
            else (head.encode, { r with lhpos := r.lhpos + 1 })
        | none =>
            if r.strpos < buf.str.length then
              (buf.str.drop r.strpos, { r with strpos := buf.str.length })
            else ([], r)

section
attribute [local simp] next
end

/-- Headers and string bytes not yet handed out, and the pending piece. -/
def measure (r : EncReader) : ℕ :=
  match r.buf with
  | none => 0
  | some buf =>
      (buf.lheads.length - r.lhpos) + (buf.str.length - r.strpos) + if r.piece = [] then 0 else 1

theorem length_puthead_pos (small large : UInt8) (size : ℕ) : 0 < (puthead small large size).length := by
  rw [puthead_eq_header, length_header, headsize]
  split_ifs <;> omega

theorem next_measure {r : EncReader} (h : r.next.1 ≠ []) :
    { r.next.2 with piece := [] }.measure < r.measure := by
  revert h
  fun_cases next r with
  | case1 hbuf => simp
  | case2 buf hbuf hp => simp [measure, hbuf, hp]
  | case3 buf hbuf hp head hhead hlt =>
      -- a non-empty piece of string data moves `strpos` forward
      intro h
      have hin : r.strpos < buf.str.length := by
        by_contra hge
        simp [List.drop_eq_nil_of_le (Nat.le_of_not_lt hge)] at h
      simp only [not_not] at hp
      simp [measure, hbuf, hp]
      omega
  | case4 buf hbuf hp head hhead hle =>
      have hpos : r.lhpos < buf.lheads.length := (List.getElem?_eq_some_iff.mp hhead).1
      simp only [not_not] at hp
      simp [measure, hbuf, hp]
      omega
  | case5 buf hbuf hp hhead hlt =>
      simp only [not_not] at hp
      simp [measure, hbuf, hp]
  | case6 buf hbuf hp hhead hge => simp

/-- `Read`: copy pieces into a buffer of `k` bytes, after the `out` already
copied; EOF is the flag. -/
def readLoop (k : ℕ) (out : List UInt8) (r : EncReader) : List UInt8 × Bool × EncReader :=
  if r.next.1 = [] then (out, true, { r.next.2 with buf := none, piece := [] })
  else
    let nn := min (k - out.length) r.next.1.length
    if nn < r.next.1.length then (out ++ r.next.1.take nn, false, { r.next.2 with piece := r.next.1.drop nn })
    else readLoop k (out ++ r.next.1) { r.next.2 with piece := [] }
termination_by r.measure
decreasing_by exact next_measure (by assumption)

/-- `Read` into a buffer of `k` bytes. -/
def read (r : EncReader) (k : ℕ) : List UInt8 × Bool × EncReader := readLoop k [] r

/-- A caller reading with buffers of sizes `ks`, until EOF. -/
def readAll : List ℕ → EncReader → List UInt8 × Bool × EncReader
  | [], r => ([], false, r)
  | k :: ks, r =>
      if (r.read k).2.1 then r.read k
      else ((r.read k).1 ++ (readAll ks (r.read k).2.2).1, (readAll ks (r.read k).2.2).2)

/-- What is left to read. -/
def rest (r : EncReader) : List UInt8 :=
  match r.buf with
  | none => []
  | some buf => r.piece ++ Encbuf.toBytesLoop buf.str r.strpos (buf.lheads.drop r.lhpos)

/-- The headers still to come are in order and within the string data. -/
def Valid (r : EncReader) : Prop :=
  ∀ buf ∈ r.buf, r.strpos ≤ buf.str.length ∧ Ordered r.strpos buf.str.length (buf.lheads.drop r.lhpos)

theorem Valid.piece {r : EncReader} (h : r.Valid) (p : List UInt8) : { r with piece := p }.Valid := h

theorem drop_lheads_of_get {buf : Encbuf} {i : ℕ} {head : Listhead} (h : buf.lheads[i]? = some head) :
    buf.lheads.drop i = head :: buf.lheads.drop (i + 1) := by
  rw [List.drop_eq_getElem_cons (List.getElem?_eq_some_iff.mp h).1, (List.getElem?_eq_some_iff.mp h).2]

theorem next_valid {r : EncReader} (h : r.Valid) : r.next.2.Valid := by
  fun_cases next r with
  | case1 hbuf => exact h
  | case2 buf hbuf hp => exact h
  | case3 buf hbuf hp head hhead hlt =>
      obtain ⟨hle, hq, hn, hord⟩ := drop_lheads_of_get hhead ▸ h buf hbuf
      intro b hb
      simp only [hbuf, Option.mem_some_iff] at hb
      subst hb
      dsimp only
      rw [show r.strpos + (head.offset - r.strpos) = head.offset by omega]
      refine ⟨hn, ?_⟩
      rw [drop_lheads_of_get hhead]
      exact ⟨le_rfl, hn, hord⟩
  | case4 buf hbuf hp head hhead hle =>
      obtain ⟨hle, hq, hn, hord⟩ := drop_lheads_of_get hhead ▸ h buf hbuf
      intro b hb
      simp only [hbuf, Option.mem_some_iff] at hb
      subst hb
      refine ⟨hle, ?_⟩
      rw [← List.drop_drop, drop_lheads_of_get hhead, List.drop_one, List.tail_cons]
      exact hord.start_le (by omega)
  | case5 buf hbuf hp hhead hlt =>
      intro b hb
      simp only [hbuf, Option.mem_some_iff] at hb
      subst hb
      refine ⟨le_rfl, ?_⟩
      dsimp only
      rw [List.drop_eq_nil_of_le (by simpa using hhead)]
      trivial
  | case6 buf hbuf hp hhead hge => exact h

theorem rest_of_buf {r : EncReader} {buf : Encbuf} (hbuf : r.buf = some buf) :
    r.rest = r.piece ++ Encbuf.toBytesLoop buf.str r.strpos (buf.lheads.drop r.lhpos) := by
  simp [rest, hbuf]

/-- A piece handed out by `next` is the front of what is left. -/
theorem next_rest {r : EncReader} (h : r.Valid) : r.next.1 ++ { r.next.2 with piece := [] }.rest = r.rest := by
  fun_cases next r with
  | case1 hbuf => simp [rest, hbuf]
  | case2 buf hbuf hp => simp [rest, hbuf]
  | case3 buf hbuf hp head hhead hlt =>
      obtain ⟨hle, hq, hn, -⟩ := drop_lheads_of_get hhead ▸ h buf hbuf
      have hlen : ((buf.str.drop r.strpos).take (head.offset - r.strpos)).length = head.offset - r.strpos := by
        simp only [List.length_take, List.length_drop]
        omega
      simp only [not_not] at hp
      dsimp only
      simp only [rest, hbuf, hp, List.nil_append, drop_lheads_of_get hhead, Encbuf.toBytesLoop,
        hlen, show r.strpos + (head.offset - r.strpos) = head.offset by omega, Nat.sub_self, List.take_zero,
        List.length_nil, Nat.add_zero, List.append_assoc]
  | case4 buf hbuf hp head hhead hle =>
      have hoff : head.offset - r.strpos = 0 := by omega
      simp only [not_not] at hp
      dsimp only
      simp only [rest, hbuf, hp, List.nil_append, drop_lheads_of_get hhead, Encbuf.toBytesLoop, hoff,
        List.take_zero, List.length_nil, Nat.add_zero]
  | case5 buf hbuf hp hhead hlt =>
      have hnil : buf.lheads.drop r.lhpos = [] := List.drop_eq_nil_of_le (by simpa using hhead)
      simp only [not_not] at hp
      dsimp only
      simp only [rest, hbuf, hp, hnil, Encbuf.toBytesLoop, List.drop_length, List.nil_append, List.append_nil]
  | case6 buf hbuf hp hhead hge =>
      simp only [not_not] at hp
      simp [rest, hbuf, hp]

/-- `next` returns nil only when nothing is left. -/
theorem rest_of_next_nil {r : EncReader} (h : r.Valid) (hp : r.next.1 = []) : r.rest = [] := by
  revert hp
  fun_cases next r with
  | case1 hbuf => simp [rest, hbuf]
  | case2 buf hbuf hpiece => exact fun hp => absurd hp hpiece
  | case3 buf hbuf hpiece head hhead hlt =>
      intro hp
      obtain ⟨hle, hq, hn, -⟩ := drop_lheads_of_get hhead ▸ h buf hbuf
      have hlen := congrArg List.length hp
      simp only [List.length_take, List.length_drop, List.length_nil] at hlen
      omega
  | case4 buf hbuf hpiece head hhead hle =>
      intro hp
      exact absurd (congrArg List.length hp) (by simp [Listhead.encode, (length_puthead_pos _ _ _).ne'])
  | case5 buf hbuf hpiece hhead hlt =>
      intro hp
      simp only [List.drop_eq_nil_iff] at hp
      omega
  | case6 buf hbuf hpiece hhead hge =>
      intro _
      simp only [not_not] at hpiece
      rw [rest_of_buf hbuf, hpiece, List.drop_eq_nil_of_le (by simpa using hhead)]
      simp [Encbuf.toBytesLoop, List.drop_eq_nil_of_le (Nat.le_of_not_lt hge)]

theorem buf_next (r : EncReader) : r.next.2.buf = r.buf := by
  fun_cases next r <;> rfl

theorem buf_of_next_ne_nil {r : EncReader} (h : r.next.1 ≠ []) : r.buf ≠ none := by
  intro hbuf
  simp [next, hbuf] at h

theorem rest_piece {r : EncReader} (hb : r.buf ≠ none) (p : List UInt8) :
    { r with piece := p }.rest = p ++ { r with piece := [] }.rest := by
  obtain ⟨buf, hbuf⟩ := Option.ne_none_iff_exists'.mp hb
  simp [rest, hbuf]

/-- One `Read` hands out the front of what is left, `k` bytes unless it
reaches EOF. -/
theorem readLoop_spec (k : ℕ) (out : List UInt8) (r : EncReader) (h : r.Valid) :
    ∃ taken, (readLoop k out r).1 = out ++ taken ∧ taken ++ (readLoop k out r).2.2.rest = r.rest ∧
      (readLoop k out r).2.2.Valid ∧ ((readLoop k out r).2.1 = true → (readLoop k out r).2.2.rest = []) ∧
      (out.length ≤ k → (readLoop k out r).2.1 = false → (readLoop k out r).1.length = k) := by
  fun_induction readLoop k out r with
  | case1 out r hnil =>
      refine ⟨[], by simp, ?_, fun b hb => by simp at hb, fun _ => by simp [rest], by simp⟩
      rw [rest_of_next_nil h hnil]
      rfl
  | case2 out r hnil nn hlt =>
      have hb : r.next.2.buf ≠ none := by rw [buf_next]; exact buf_of_next_ne_nil hnil
      refine ⟨r.next.1.take nn, rfl, ?_, (next_valid h).piece _, by simp, fun hout _ => ?_⟩
      · rw [rest_piece hb, ← List.append_assoc, List.take_append_drop, next_rest h]
      · simp only [List.length_append, List.length_take]
        omega
  | case3 out r hnil nn hge ih =>
      obtain ⟨taken, hout, hrest, hvalid, heof, hlen⟩ := ih ((next_valid h).piece [])
      refine ⟨r.next.1 ++ taken, by rw [hout, List.append_assoc], ?_, hvalid, heof, fun hk hfalse => ?_⟩
      · rw [List.append_assoc, hrest, next_rest h]
      · exact hlen (by simp only [List.length_append]; omega) hfalse

/-- Reads until EOF hand out what was left, in order. -/
theorem readAll_spec : ∀ (ks : List ℕ) (r : EncReader), r.Valid →
    (readAll ks r).1 ++ (readAll ks r).2.2.rest = r.rest ∧
      ((readAll ks r).2.1 = true → (readAll ks r).1 = r.rest) ∧
      ((readAll ks r).2.1 = false → (readAll ks r).1.length = ks.sum)
  | [], r, _ => by simp [readAll]
  | k :: ks, r, h => by
      obtain ⟨taken, hout, hrest, hvalid, heof, hlen⟩ := readLoop_spec k [] r h
      simp only [List.nil_append] at hout
      change (r.read k).1 = taken at hout
      change taken ++ (r.read k).2.2.rest = r.rest at hrest
      change (r.read k).2.2.Valid at hvalid
      change (r.read k).2.1 = true → (r.read k).2.2.rest = [] at heof
      change [].length ≤ k → (r.read k).2.1 = false → (r.read k).1.length = k at hlen
      simp only [readAll]
      generalize r.read k = res at hout hrest hvalid heof hlen ⊢
      obtain ⟨out, eof, r₁⟩ := res
      simp only at hout hrest hvalid heof hlen
      subst hout
      cases eof with
      | true =>
          simp only [↓reduceIte]
          exact ⟨hrest, fun _ => by rw [← hrest, heof rfl, List.append_nil], fun h' => absurd h' (by simp)⟩
      | false =>
          obtain ⟨hrest', heof', hlen'⟩ := readAll_spec ks r₁ hvalid
          simp only [Bool.false_eq_true, ↓reduceIte]
          refine ⟨by rw [List.append_assoc, hrest', hrest], fun h' => by rw [heof' h', hrest], fun h' => ?_⟩
          rw [List.length_append, hlen' h', hlen (Nat.zero_le _) rfl, List.sum_cons]

theorem readAll_eof {ks : List ℕ} {r : EncReader} (h : r.Valid) (hks : r.rest.length < ks.sum) :
    (readAll ks r).2.1 = true := by
  obtain ⟨hrest, -, hlen⟩ := readAll_spec ks r h
  by_contra hfalse
  have := congrArg List.length hrest
  rw [List.length_append, hlen (by simpa using hfalse)] at this
  omega

end EncReader

/-- The reader `EncodeToReader` hands out over a written buffer. -/
def EncReader.ofBuf (buf : Encbuf) : EncReader := ⟨some buf, 0, 0, []⟩

/-- Reading a buffer that holds `b` until EOF hands out `b`, in order: every
sequence of `Read` calls gets a prefix of it, all of it once EOF is reported,
and EOF once the buffers add up to more than `b`. -/
theorem Writes.readAll {f : Encbuf → Encbuf} {b : List UInt8} (hf : Writes f b) (ks : List ℕ) :
    (EncReader.readAll ks (EncReader.ofBuf (f Encbuf.reset))).1 <+: b ∧
      ((EncReader.readAll ks (EncReader.ofBuf (f Encbuf.reset))).2.1 = true →
        (EncReader.readAll ks (EncReader.ofBuf (f Encbuf.reset))).1 = b) ∧
      (b.length < ks.sum → (EncReader.readAll ks (EncReader.ofBuf (f Encbuf.reset))).2.1 = true) := by
  have hvalid : (EncReader.ofBuf (f Encbuf.reset)).Valid := fun buf hbuf => by
    simp only [EncReader.ofBuf, Option.mem_some_iff] at hbuf
    subst hbuf
    exact ⟨Nat.zero_le _, hf.ordered_reset⟩
  have hrest : (EncReader.ofBuf (f Encbuf.reset)).rest = b := by
    simpa [EncReader.ofBuf, EncReader.rest, Encbuf.toBytes] using hf.toBytes_reset
  obtain ⟨hall, heof, -⟩ := EncReader.readAll_spec ks _ hvalid
  rw [hrest] at hall heof
  exact ⟨⟨_, hall⟩, heof, fun hks => EncReader.readAll_eof hvalid (by rwa [hrest])⟩

end GoQuai.Rlp
