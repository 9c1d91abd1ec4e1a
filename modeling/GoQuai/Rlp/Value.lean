import GoQuai.Rlp.Decode

/-! # Go values

The types `makeWriter` and `makeDecoder` of `rlp/encode.go` and
`rlp/decode.go` tell apart, the values of those types, and the RLP value each
one stands for (`toItems`), the reference the writers and decoders are proved
against.

A type is the shape `reflect` shows the codec: every unsigned integer type is
`uint` with its bit size, `[]byte` and `[n]byte` are `bytes` and `byteArray`,
`*big.Int` is `ptr bigInt`, and a struct lists its exported fields that are not
`rlp:"-"`, each with the tags `parseStructTag` read. A value is `bytes` for a
string or a byte slice or array, `list` for the elements of a slice or an array
or the fields of a struct, `nil` for a nil pointer or interface, and `iface t v`
for an interface holding `v` of dynamic type `t`. A nil slice is the empty one.
-/

namespace GoQuai.Rlp

open GoQuai.BigEndian

/-- `tags`, as `parseStructTag` leaves them. `nilKind` is read only when
`nilOK`; the `nil` tag sets it to `defaultNilKind` of the element. -/
structure Tags where
  nilOK : Bool
  nilKind : Kind
  optional : Bool
  tail : Bool
  deriving DecidableEq

/-- `tags{}`: the tags of everything but a struct field. -/
def noTags : Tags := ⟨false, .byte 0, false, false⟩

/-- The RLP-serialisable Go types. -/
inductive Ty
  | uint (bits : ℕ)
  | bool
  | string
  | bytes
  | byteArray (len : ℕ)
  | bigInt
  | slice (elem : Ty)
  | array (len : ℕ) (elem : Ty)
  | struct (fields : List (Ty × Tags))
  | ptr (elem : Ty)
  | iface

/-- Values of those types. -/
inductive Val
  | uint (n : ℕ)
  | bool (b : Bool)
  | bytes (b : List UInt8)
  | bigInt (n : ℕ)
  | list (xs : List Val)
  | nil
  | ptr (v : Val)
  | iface (t : Ty) (v : Val)

/-! ## Equality

`deriving DecidableEq` does not reach through the lists of the two types; the
tests below do, and decide equality. -/

mutual
/-- Equality of types, as a test. -/
def Ty.beq : Ty → Ty → Bool
  | .uint m, .uint n | .byteArray m, .byteArray n => m == n
  | .bool, .bool | .string, .string | .bytes, .bytes | .bigInt, .bigInt | .iface, .iface => true
  | .slice a, .slice b | .ptr a, .ptr b => a.beq b
  | .array m a, .array n b => m == n && a.beq b
  | .struct fs, .struct gs => fieldsBeq fs gs
  | _, _ => false

def fieldsBeq : List (Ty × Tags) → List (Ty × Tags) → Bool
  | [], [] => true
  | (a, ts) :: fs, (b, us) :: gs => a.beq b && decide (ts = us) && fieldsBeq fs gs
  | _, _ => false
end

-- Generate the equation lemmas of these definitions once, here, rather than in
-- each of the proofs below that unfold them while they are elaborated in parallel.
section
attribute [local simp] Ty.beq
end

mutual
theorem Ty.beq_iff : ∀ a b : Ty, a.beq b = true ↔ a = b
  | .uint _, b | .bool, b | .string, b | .bytes, b | .byteArray _, b | .bigInt, b | .iface, b => by
      cases b <;> simp [Ty.beq]
  | .slice a, b | .ptr a, b => by cases b <;> simp [Ty.beq, Ty.beq_iff a]
  | .array _ a, b => by cases b <;> simp [Ty.beq, Ty.beq_iff a]
  | .struct fs, b => by cases b <;> simp [Ty.beq, fieldsBeq_iff fs]

theorem fieldsBeq_iff : ∀ fs gs : List (Ty × Tags), fieldsBeq fs gs = true ↔ fs = gs
  | [], gs => by cases gs <;> simp [fieldsBeq]
  | (a, ts) :: fs, gs => by
      rcases gs with _ | ⟨⟨b, us⟩, gs⟩
      · simp [fieldsBeq]
      · simp [fieldsBeq, Ty.beq_iff a b, fieldsBeq_iff fs gs, and_assoc]
end

instance : DecidableEq Ty := fun a b => decidable_of_iff _ (Ty.beq_iff a b)

mutual
/-- Equality of values, as a test. -/
def Val.beq : Val → Val → Bool
  | .uint m, .uint n | .bigInt m, .bigInt n => m == n
  | .bool a, .bool b => a == b
  | .bytes a, .bytes b => a == b
  | .list xs, .list ys => valsBeq xs ys
  | .nil, .nil => true
  | .ptr a, .ptr b => a.beq b
  | .iface t a, .iface u b => decide (t = u) && a.beq b
  | _, _ => false

def valsBeq : List Val → List Val → Bool
  | [], [] => true
  | x :: xs, y :: ys => x.beq y && valsBeq xs ys
  | _, _ => false
end

section
attribute [local simp] Val.beq
end

mutual
theorem Val.beq_iff : ∀ a b : Val, a.beq b = true ↔ a = b
  | .uint _, b | .bigInt _, b | .bool _, b | .bytes _, b | .nil, b => by cases b <;> simp [Val.beq]
  | .list xs, b => by cases b <;> simp [Val.beq, valsBeq_iff xs]
  | .ptr a, b => by cases b <;> simp [Val.beq, Val.beq_iff a]
  | .iface _ a, b => by cases b <;> simp [Val.beq, Val.beq_iff a]

theorem valsBeq_iff : ∀ xs ys : List Val, valsBeq xs ys = true ↔ xs = ys
  | [], ys => by cases ys <;> simp [valsBeq]
  | x :: xs, ys => by
      rcases ys with _ | ⟨y, ys⟩
      · simp [valsBeq]
      · simp [valsBeq, Val.beq_iff x y, valsBeq_iff xs ys]
end

instance : DecidableEq Val := fun a b => decidable_of_iff _ (Val.beq_iff a b)

/-- `isByte`: `uint8`, whose slices and arrays are byte strings. -/
def Ty.isByte : Ty → Bool
  | .uint 8 => true
  | _ => false

/-- `big.Int`: a pointer to it is written and read by `writeBigIntPtr` and
`decodeBigInt`, whatever its tags. -/
def Ty.isBigInt : Ty → Bool
  | .bigInt => true
  | _ => false

/-- `defaultNilKind`: the empty value a nil pointer to the type is. -/
def defaultNilKind : Ty → Kind
  | .uint _ | .string | .bool | .bytes | .byteArray _ => .string
  | _ => .list

/-- The empty value `makePtrWriter` writes for a nil pointer. -/
def Tags.nilKindOf (ts : Tags) (elem : Ty) : Kind := if ts.nilOK then ts.nilKind else defaultNilKind elem

/-- `firstOptionalField`. -/
def firstOptionalField (fs : List (Ty × Tags)) : ℕ := fs.findIdx (·.2.optional)

/-! ## Well-formed types

What `makeWriter`, `makeDecoder`, `structFields` and `parseStructTag` accept:
unsigned integers of 8 to 64 bits; slices and arrays of non-bytes (those of
bytes are `bytes` and `byteArray`); `nil` tags only on pointers, with an empty
string or list; `tail` only on a last field of slice type and never with
`optional`; and after an `optional` or `tail` field only such fields. -/

/-- `parseStructTag`'s checks of a field's tags. -/
def tagsWellFormed (t : Ty) (ts : Tags) (last : Bool) : Bool :=
  (!ts.nilOK || (match t with | .ptr _ => true | _ => false) &&
      (ts.nilKind == .string || ts.nilKind == .list)) &&
    !(ts.optional && ts.tail) &&
    (!ts.tail || last && match t with | .slice _ | .bytes => true | _ => false)

mutual
/-- A type the codec accepts. -/
def Ty.wellFormed : Ty → Bool
  | .uint bits => bits == 8 || bits == 16 || bits == 32 || bits == 64
  | .bool | .string | .bytes | .byteArray _ | .bigInt | .iface => true
  | .slice e => !e.isByte && e.wellFormed
  | .array _ e => !e.isByte && e.wellFormed
  | .struct fs => fieldsWellFormed false fs
  | .ptr e => e.wellFormed

/-- The loop of `structFields`, `anyOptional` set once an `optional` or
`tail` field was seen. -/
def fieldsWellFormed (anyOptional : Bool) : List (Ty × Tags) → Bool
  | [] => true
  | (t, ts) :: fs =>
      t.wellFormed && tagsWellFormed t ts fs.isEmpty && (ts.optional || ts.tail || !anyOptional) &&
        fieldsWellFormed (anyOptional || ts.optional || ts.tail) fs
end

mutual
/-- No struct in the type has an `optional` field. -/
def Ty.noOptional : Ty → Bool
  | .slice e | .array _ e | .ptr e => e.noOptional
  | .struct fs => fieldsNoOptional fs
  | _ => true

def fieldsNoOptional : List (Ty × Tags) → Bool
  | [] => true
  | (t, ts) :: fs => !ts.optional && t.noOptional && fieldsNoOptional fs
end

/-! ## Values of a type -/

mutual
/-- `v` is a value of type `t`; an interface's dynamic type is one the codec
accepts. -/
def typed : Ty → Val → Bool
  | .uint bits, .uint n => decide (n < 2 ^ bits)
  | .bool, .bool _ => true
  | .string, .bytes _ => true
  | .bytes, .bytes _ => true
  | .byteArray len, .bytes b => b.length == len
  | .bigInt, .bigInt _ => true
  | .slice e, .list xs => allTyped e xs
  | .array len e, .list xs => xs.length == len && allTyped e xs
  | .struct fs, .list xs => fieldsTyped fs xs
  | .ptr _, .nil => true
  | .ptr e, .ptr v => typed e v
  | .iface, .nil => true
  | .iface, .iface t v => t.wellFormed && typed t v
  | _, _ => false

def allTyped (e : Ty) : List Val → Bool
  | [] => true
  | x :: xs => typed e x && allTyped e xs

def fieldsTyped : List (Ty × Tags) → List Val → Bool
  | [], [] => true
  | (t, _) :: fs, x :: xs => typed t x && fieldsTyped fs xs
  | _, _ => false
end

mutual
/-- `reflect.Value.IsZero`. -/
def isZero : Ty → Val → Bool
  | .uint _, .uint n => n == 0
  | .bool, .bool b => !b
  | .string, .bytes b | .bytes, .bytes b => b.isEmpty
  | .byteArray _, .bytes b => b.all (· == 0)
  | .bigInt, .bigInt n => n == 0
  | .slice _, .list xs => xs.isEmpty
  | .array _ e, .list xs => allZero e xs
  | .struct fs, .list xs => fieldsZero fs xs
  | .ptr _, .nil | .iface, .nil => true
  | _, _ => false

def allZero (e : Ty) : List Val → Bool
  | [] => true
  | x :: xs => isZero e x && allZero e xs

def fieldsZero : List (Ty × Tags) → List Val → Bool
  | (t, _) :: fs, x :: xs => isZero t x && fieldsZero fs xs
  | _, _ => true
end

mutual
/-- `reflect.Zero`. -/
def Ty.zero : Ty → Val
  | .uint _ => .uint 0
  | .bool => .bool false
  | .string | .bytes => .bytes []
  | .byteArray len => .bytes (List.replicate len 0)
  | .bigInt => .bigInt 0
  | .slice _ => .list []
  | .array len e => .list (List.replicate len e.zero)
  | .struct fs => .list (zeroFields fs)
  | .ptr _ | .iface => .nil

/-- `zeroFields`: the zero values of the fields. -/
def zeroFields : List (Ty × Tags) → List Val
  | [] => []
  | (t, _) :: fs => t.zero :: zeroFields fs
end

/-- The field at `n` is zero. -/
def fieldZeroAt (fs : List (Ty × Tags)) (xs : List Val) (n : ℕ) : Bool :=
  match fs[n]?, xs[n]? with
  | some f, some x => isZero f.1 x
  | _, _ => false

/-- The loop of `makeStructWriter` that finds `lastField`, as a count: from
the end down to `first`, zero fields are not written. -/
def writtenFields (fs : List (Ty × Tags)) (xs : List Val) (first : ℕ) : ℕ → ℕ
  | 0 => 0
  | n + 1 => if first ≤ n ∧ fieldZeroAt fs xs n then writtenFields fs xs first n else n + 1

/-- How many fields `makeStructWriter` writes: all of them without optional
fields, else up to the last nonzero one from the first optional field on. -/
def keptFields (fs : List (Ty × Tags)) (xs : List Val) : ℕ :=
  if firstOptionalField fs = fs.length then fs.length
  else writtenFields fs xs (firstOptionalField fs) fs.length

/-! ## The RLP value of a Go value

Integers are their big-endian bytes without leading zeros, `true` the byte 1
and `false` the empty string; a slice, an array or a struct is the list of its
elements, its written fields, a `tail` slice spliced into the enclosing list; a
pointer or an interface is what it points to or holds, and nil is the empty
value of its kind (the empty list for an interface). -/

mutual
/-- The RLP values a write of `v` at `t` with tags `ts` appends: one, or a
`tail` slice's elements. -/
def toItems : Ty → Tags → Val → List Item
  | .bigInt, _, .bigInt i => [.str (toBytes i)]
  | .ptr e, ts, .nil => [if e.isBigInt || ts.nilKindOf e == .string then .str [] else .list []]
  | .ptr e, _, .ptr v => toItems e noTags v
  | .uint _, _, .uint n => [.str (toBytes n)]
  | .bool, _, .bool b => [.str (if b then [1] else [])]
  | .string, _, .bytes b | .bytes, _, .bytes b | .byteArray _, _, .bytes b => [.str b]
  | .slice e, ts, .list xs | .array _ e, ts, .list xs =>
      if ts.tail then elemsItems e xs else [.list (elemsItems e xs)]
  | .struct fs, _, .list xs => [.list (fieldsItems fs xs (keptFields fs xs))]
  | .iface, _, .nil => [.list []]
  | .iface, _, .iface t v => toItems t noTags v
  | _, _, _ => []

def elemsItems (e : Ty) : List Val → List Item
  | [] => []
  | x :: xs => toItems e noTags x ++ elemsItems e xs

/-- The first `n` fields. -/
def fieldsItems : List (Ty × Tags) → List Val → ℕ → List Item
  | (t, ts) :: fs, x :: xs, n + 1 => toItems t ts x ++ fieldsItems fs xs n
  | _, _, _ => []
end

mutual
/-- What `decodeInterface` stores in an `interface{}`: a `[]byte` for a
string, an `[]interface{}` for a list. -/
def ofItem : Item → Val
  | .str b => .iface .bytes (.bytes b)
  | .list xs => .iface (.slice .iface) (.list (ofItems xs))

def ofItems : List Item → List Val
  | [] => []
  | x :: xs => ofItem x :: ofItems xs
end

/-- An empty string or list: what a `nil`-tagged pointer decodes to nil. -/
def Item.isEmpty : Item → Bool
  | .str [] | .list [] => true
  | _ => false

mutual
/-- Values whose encoding `DecodeBytes` reads back as the same value: a nil
pointer only with a `nil` tag (and never a nil `*big.Int`, whose writer and
decoder ignore the tags), a `nil`-tagged pointer never to a value whose
encoding is empty, interfaces holding only what `decodeInterface` stores, and
no struct whose first field left out is a `[]byte` `tail`, which the decoder
reads as a string and finds missing. -/
def restorable : Ty → Tags → Val → Bool
  | .ptr e, ts, .nil => !e.isBigInt && ts.nilOK
  | .ptr e, ts, .ptr v =>
      restorable e noTags v && !(ts.nilOK && !e.isBigInt && (toItems e noTags v).all Item.isEmpty)
  | .slice e, _, .list xs | .array _ e, _, .list xs => allRestorable e xs
  | .struct fs, _, .list xs =>
      fieldsRestorable fs xs && match fs[keptFields fs xs]? with
        | some (.bytes, ts) => !ts.tail
        | _ => true
  | .iface, _, v => isItemVal v
  | _, _, _ => true

def allRestorable (e : Ty) : List Val → Bool
  | [] => true
  | x :: xs => restorable e noTags x && allRestorable e xs

def fieldsRestorable : List (Ty × Tags) → List Val → Bool
  | (t, ts) :: fs, x :: xs => restorable t ts x && fieldsRestorable fs xs
  | _, _ => true

/-- A value `ofItem` makes. -/
def isItemVal : Val → Bool
  | .iface .bytes (.bytes _) => true
  | .iface (.slice .iface) (.list xs) => allItemVals xs
  | _ => false

def allItemVals : List Val → Bool
  | [] => true
  | x :: xs => isItemVal x && allItemVals xs
end

section
attribute [local simp] tagsWellFormed fieldsWellFormed typed isZero Ty.zero toItems restorable
end

/-! ## Lemmas on values -/

/-- Every value but a `tail` slice stands for one RLP value. -/
theorem toItems_single : ∀ (v : Val) (t : Ty) (ts : Tags), ts.tail = false → typed t v = true →
    ∃ i, toItems t ts v = [i]
  | .uint _, t, _, _, ht | .bool _, t, _, _, ht | .bytes _, t, _, _, ht | .bigInt _, t, _, _, ht => by
      cases t <;> simp_all [typed, toItems]
  | .list _, t, _, hts, ht => by cases t <;> simp_all [typed, toItems]
  | .nil, t, _, _, ht => by cases t <;> simp_all [typed, toItems]
  | .ptr v, t, _, _, ht => by
      cases t <;> simp only [typed, reduceCtorEq] at ht
      exact toItems_single v _ noTags rfl ht
  | .iface t' v, t, _, _, ht => by
      cases t <;> simp only [typed, reduceCtorEq, Bool.and_eq_true] at ht
      exact toItems_single v t' noTags rfl ht.2

theorem fieldsTyped_length : ∀ {fs : List (Ty × Tags)} {xs : List Val}, fieldsTyped fs xs = true →
    xs.length = fs.length
  | [], [], _ => rfl
  | (_, _) :: _, _ :: _, h => by
      simp only [fieldsTyped, Bool.and_eq_true] at h
      simp [fieldsTyped_length h.2]

theorem allTyped_iff {e : Ty} : ∀ {xs : List Val}, allTyped e xs = true ↔ ∀ x ∈ xs, typed e x = true
  | [] => by simp [allTyped]
  | x :: xs => by simp [allTyped, allTyped_iff]

mutual
/-- A zero value is the type's zero value. -/
theorem eq_zero_of_isZero : ∀ (v : Val) (t : Ty), typed t v = true → isZero t v = true → v = t.zero
  | .uint _, t, ht, hz | .bool _, t, ht, hz | .bigInt _, t, ht, hz | .nil, t, ht, hz
  | .ptr _, t, ht, hz | .iface _ _, t, ht, hz => by
      cases t <;> simp_all [typed, isZero, Ty.zero]
  | .bytes b, t, ht, hz => by
      cases t <;> simp_all [typed, isZero, Ty.zero]
      exact List.eq_replicate_iff.mpr ⟨ht, hz⟩
  | .list xs, t, ht, hz => by
      cases t <;> simp only [typed, isZero, reduceCtorEq, Bool.and_eq_true, beq_iff_eq] at ht hz
      case slice => simp_all [Ty.zero]
      case array len e =>
        rw [Ty.zero, allZero_eq e xs ht.2 hz, ht.1]
      case struct fs => rw [Ty.zero, fieldsZero_eq fs xs ht hz]

theorem allZero_eq (e : Ty) : ∀ xs : List Val, allTyped e xs = true → allZero e xs = true →
    xs = List.replicate xs.length e.zero
  | [], _, _ => rfl
  | x :: xs, ht, hz => by
      simp only [allTyped, allZero, Bool.and_eq_true] at ht hz
      rw [List.length_cons, List.replicate_succ, ← allZero_eq e xs ht.2 hz.2,
        eq_zero_of_isZero x e ht.1 hz.1]

theorem fieldsZero_eq : ∀ (fs : List (Ty × Tags)) (xs : List Val), fieldsTyped fs xs = true →
    fieldsZero fs xs = true → xs = zeroFields fs
  | [], [], _, _ => rfl
  | (t, _) :: fs, x :: xs, ht, hz => by
      simp only [fieldsTyped, fieldsZero, Bool.and_eq_true] at ht hz
      rw [zeroFields, ← fieldsZero_eq fs xs ht.2 hz.2, eq_zero_of_isZero x t ht.1 hz.1]
end

theorem fieldsZero_drop {fs : List (Ty × Tags)} {xs : List Val} {m : ℕ} (hz : fieldZeroAt fs xs m = true)
    (hrest : fieldsZero (fs.drop (m + 1)) (xs.drop (m + 1)) = true) :
    fieldsZero (fs.drop m) (xs.drop m) = true := by
  unfold fieldZeroAt at hz
  rcases hf : fs[m]? with _ | f <;> rcases hx : xs[m]? with _ | x <;>
    simp only [hf, hx, Bool.false_eq_true] at hz
  obtain ⟨hfm, rfl⟩ := List.getElem?_eq_some_iff.mp hf
  obtain ⟨hxm, rfl⟩ := List.getElem?_eq_some_iff.mp hx
  rw [List.drop_eq_getElem_cons hfm, List.drop_eq_getElem_cons hxm, fieldsZero, hz, hrest]
  rfl

/-- The struct writer's loop stops at a field from which on every field is
zero, and not below `first`. -/
theorem writtenFields_spec (fs : List (Ty × Tags)) (xs : List Val) (first : ℕ) : ∀ m : ℕ,
    fieldsZero (fs.drop m) (xs.drop m) = true →
      writtenFields fs xs first m ≤ m ∧
        fieldsZero (fs.drop (writtenFields fs xs first m)) (xs.drop (writtenFields fs xs first m)) = true ∧
        (first ≤ m → first ≤ writtenFields fs xs first m)
  | 0, hz => ⟨le_rfl, hz, fun h => h⟩
  | m + 1, hz => by
      unfold writtenFields
      split_ifs with h
      · obtain ⟨hle, hz', hfirst⟩ := writtenFields_spec fs xs first m (fieldsZero_drop h.2 hz)
        exact ⟨by omega, hz', fun _ => hfirst h.1⟩
      · exact ⟨le_rfl, hz, fun h => h⟩

theorem firstOptionalField_le (fs : List (Ty × Tags)) : firstOptionalField fs ≤ fs.length :=
  List.findIdx_le_length

/-- `makeStructWriter` writes a prefix of the fields, drops only zero fields,
and drops none below the first optional one. -/
theorem keptFields_spec (fs : List (Ty × Tags)) (xs : List Val) (hlen : xs.length = fs.length) :
    keptFields fs xs ≤ fs.length ∧
      fieldsZero (fs.drop (keptFields fs xs)) (xs.drop (keptFields fs xs)) = true ∧
      (keptFields fs xs < fs.length → firstOptionalField fs ≤ keptFields fs xs) := by
  have hnil : fieldsZero (fs.drop fs.length) (xs.drop fs.length) = true := by
    rw [List.drop_length, ← hlen, List.drop_length]
    rfl
  unfold keptFields
  split_ifs with h
  · exact ⟨le_rfl, hnil, fun h' => absurd h' (lt_irrefl _)⟩
  · obtain ⟨hle, hz, hfirst⟩ := writtenFields_spec fs xs (firstOptionalField fs) fs.length hnil
    exact ⟨hle, hz, fun _ => hfirst (firstOptionalField_le fs)⟩

/-- From a struct's first optional field on, every field is optional or the
`tail`. -/
theorem optional_or_tail_of_all {a : Bool} : ∀ {fs : List (Ty × Tags)}, fieldsWellFormed a fs = true →
    a = true → ∀ p ∈ fs, p.2.optional = true ∨ p.2.tail = true
  | [], _, _ => by simp
  | (t, ts) :: fs, hw, ha => by
      simp only [fieldsWellFormed, Bool.and_eq_true, Bool.or_eq_true, Bool.not_eq_true'] at hw
      intro p hp
      rcases List.mem_cons.mp hp with rfl | hp
      · rcases hw.1.2 with (h | h) | h
        · exact Or.inl h
        · exact Or.inr h
        · simp [ha] at h
      · exact optional_or_tail_of_all hw.2 (by simp [ha]) p hp

theorem optional_or_tail {a : Bool} : ∀ {fs : List (Ty × Tags)}, fieldsWellFormed a fs = true →
    ∀ i, firstOptionalField fs ≤ i → ∀ p ∈ fs[i]?, p.2.optional = true ∨ p.2.tail = true
  | [], _, _, _ => by simp
  | (t, ts) :: fs, hw, i, hi => by
      have hw' := hw
      simp only [fieldsWellFormed, Bool.and_eq_true] at hw'
      simp only [firstOptionalField, List.findIdx_cons] at hi
      cases hopt : ts.optional
      · simp only [hopt, cond_false] at hi
        obtain ⟨i, rfl⟩ : ∃ j, i = j + 1 := ⟨i - 1, by omega⟩
        exact optional_or_tail hw'.2 i (by simpa [firstOptionalField] using hi)
      · cases i with
        | zero => simp [hopt]
        | succ i =>
            intro p hp
            exact optional_or_tail_of_all hw'.2 (by simp [hopt]) p (List.mem_of_getElem? hp)

/-- A `tail` field is the last, and a slice. -/
theorem tail_last {t : Ty} {ts : Tags} {fs : List (Ty × Tags)} {a : Bool}
    (hw : fieldsWellFormed a ((t, ts) :: fs) = true) (htail : ts.tail = true) :
    fs = [] ∧ ((∃ e, t = .slice e) ∨ t = .bytes) := by
  simp only [fieldsWellFormed, tagsWellFormed, htail, Bool.and_eq_true, Bool.not_true,
    Bool.false_or, Bool.and_true] at hw
  obtain ⟨⟨⟨-, -, hlast, hkind⟩, -⟩, -⟩ := hw
  refine ⟨List.isEmpty_iff.mp hlast, ?_⟩
  cases t <;> simp_all

/-- An `optional` field is no `tail`. -/
theorem tail_eq_false_of_optional {t : Ty} {ts : Tags} {fs : List (Ty × Tags)} {a : Bool}
    (hw : fieldsWellFormed a ((t, ts) :: fs) = true) (hopt : ts.optional = true) : ts.tail = false := by
  simp only [fieldsWellFormed, tagsWellFormed, hopt, Bool.true_and, Bool.and_eq_true, Bool.not_eq_true'] at hw
  exact hw.1.1.2.1.2

theorem tail_eq_false_of_tagsWellFormed {t : Ty} {ts : Tags} (h : tagsWellFormed t ts false = true) :
    ts.tail = false := by
  cases htail : ts.tail
  · rfl
  · simp [tagsWellFormed, htail] at h

theorem tagsWellFormed_false {t : Ty} {ts : Tags} {last : Bool} (h : tagsWellFormed t ts last = true)
    (htail : ts.tail = false) : tagsWellFormed t ts false = true := by
  simpa [tagsWellFormed, htail] using h

theorem tagsWellFormed_noTags (t : Ty) (last : Bool) : tagsWellFormed t noTags last = true := rfl

/-- A `nil` tag names an empty string or an empty list. -/
theorem nilKind_of_tagsWellFormed {t : Ty} {ts : Tags} {last : Bool} (h : tagsWellFormed t ts last = true)
    (hnil : ts.nilOK = true) : ts.nilKind = .string ∨ ts.nilKind = .list := by
  simp only [tagsWellFormed, hnil, Bool.not_true, Bool.false_or, Bool.and_eq_true, Bool.or_eq_true,
    beq_iff_eq] at h
  exact h.1.1.2

/-- A `tail` field is a slice or a byte slice. -/
theorem tail_kind {t : Ty} {ts : Tags} {last : Bool} (h : tagsWellFormed t ts last = true)
    (htail : ts.tail = true) : (∃ e, t = .slice e) ∨ t = .bytes := by
  simp only [tagsWellFormed, htail, Bool.not_true, Bool.false_or, Bool.and_eq_true] at h
  cases t <;> simp_all

theorem tagsWellFormed_of_mem {a : Bool} : ∀ {fs : List (Ty × Tags)}, fieldsWellFormed a fs = true →
    ∀ p ∈ fs, p.1.wellFormed = true ∧ ∃ last, tagsWellFormed p.1 p.2 last = true
  | [], _ => by simp
  | (t, ts) :: fs, hw => by
      simp only [fieldsWellFormed, Bool.and_eq_true] at hw
      intro p hp
      rcases List.mem_cons.mp hp with rfl | hp
      · exact ⟨hw.1.1.1, _, hw.1.1.2⟩
      · exact tagsWellFormed_of_mem hw.2 p hp

theorem firstOptionalField_of_noOptional : ∀ {fs : List (Ty × Tags)}, fieldsNoOptional fs = true →
    firstOptionalField fs = fs.length
  | [], _ => rfl
  | (t, ts) :: fs, h => by
      simp only [fieldsNoOptional, Bool.and_eq_true, Bool.not_eq_true'] at h
      simp only [firstOptionalField, List.findIdx_cons, h.1.1, cond_false, List.length_cons]
      exact congrArg (· + 1) (firstOptionalField_of_noOptional h.2)

/-- Without optional fields every field is written. -/
theorem keptFields_of_noOptional {fs : List (Ty × Tags)} (h : fieldsNoOptional fs = true) (xs : List Val) :
    keptFields fs xs = fs.length := by
  simp [keptFields, firstOptionalField_of_noOptional h]

mutual
/-- What `decodeInterface` stores is a value of `interface{}`. -/
theorem typed_ofItem : ∀ i : Item, typed .iface (ofItem i) = true
  | .str _ => rfl
  | .list xs => by simp [ofItem, typed, Ty.wellFormed, Ty.isByte, allTyped_ofItems xs]

theorem allTyped_ofItems : ∀ xs : List Item, allTyped .iface (ofItems xs) = true
  | [] => rfl
  | x :: xs => by simp [ofItems, allTyped, typed_ofItem x, allTyped_ofItems xs]
end

mutual
/-- What `decodeInterface` stores stands for the RLP value it read. -/
theorem toItems_ofItem (ts : Tags) : ∀ i : Item, toItems .iface ts (ofItem i) = [i]
  | .str _ => rfl
  | .list xs => by simp [ofItem, toItems, noTags, elemsItems_ofItems xs]

theorem elemsItems_ofItems : ∀ xs : List Item, elemsItems .iface (ofItems xs) = xs
  | [] => rfl
  | x :: xs => by simp [ofItems, elemsItems, toItems_ofItem noTags x, elemsItems_ofItems xs]
end

mutual
theorem exists_ofItem (v : Val) (h : isItemVal v = true) : ∃ i, v = ofItem i := by
  match v, h with
  | .iface .bytes (.bytes b), _ => exact ⟨.str b, rfl⟩
  | .iface (.slice .iface) (.list xs), h =>
      obtain ⟨ys, rfl⟩ := exists_ofItems xs (by simpa [isItemVal] using h)
      exact ⟨.list ys, rfl⟩

theorem exists_ofItems (xs : List Val) (h : allItemVals xs = true) : ∃ ys, xs = ofItems ys := by
  match xs, h with
  | [], _ => exact ⟨[], rfl⟩
  | x :: xs, h =>
      simp only [allItemVals, Bool.and_eq_true] at h
      obtain ⟨i, rfl⟩ := exists_ofItem x h.1
      obtain ⟨ys, rfl⟩ := exists_ofItems xs h.2
      exact ⟨i :: ys, rfl⟩
end

end GoQuai.Rlp
