import GoQuai.Rlp.Stream

/-! # Decoding lists and `interface{}`

`decodeSliceElems` and `decodeListSlice` of `rlp/decode.go`, over any element
decoder, and `decodeInterface`, which reads a byte string or a list of such
values. The recursion has a fuel argument, and `none` is running out of it;
every nested value reads a tag byte, so `DecodeBytes` passes one more than the
input's length.
-/

namespace GoQuai.Rlp

open GoQuai.Rlp.Stream

/-- `decodeSliceElems`: decode elements until `EOL`. -/
def decodeSliceElems {α : Type} (elemdec : Stream → Option (Except Error (α × Stream))) :
    ℕ → Stream → Option (Except Error (List α × Stream))
  | 0, _ => none
  | fuel + 1, s =>
      match elemdec s with
      | none => none
      | some (.error e) => if e = .eol then some (.ok ([], s)) else some (.error e)
      | some (.ok (x, s₁)) =>
          (decodeSliceElems elemdec fuel s₁).map (Except.map fun (xs, s₂) => (x :: xs, s₂))

def decodeListSlice {α : Type} (elemdec : Stream → Option (Except Error (α × Stream))) (fuel : ℕ)
    (s : Stream) : Option (Except Error (List α × Stream)) :=
  match s.list with
  | .error e => some (.error e)
  | .ok (size, s) =>
      if size = 0 then some (s.listEnd.map fun s => ([], s))
      else (decodeSliceElems elemdec fuel s).map fun r =>
        r.bind fun (xs, s) => s.listEnd.map fun s => (xs, s)

/-- The element loop of `decodeListArray`: exactly `n` elements, and `EOL`
before them is too few. -/
def decodeArrayElems {α : Type} (elemdec : Stream → Option (Except Error (α × Stream))) :
    ℕ → Stream → Option (Except Error (List α × Stream))
  | 0, s => some (.ok ([], s))
  | n + 1, s =>
      match elemdec s with
      | none => none
      | some (.error e) => some (.error (if e = .eol then .listTooFewElements else e))
      | some (.ok (x, s₁)) => (decodeArrayElems elemdec n s₁).map (Except.map fun (xs, s₂) => (x :: xs, s₂))

def decodeListArray {α : Type} (len : ℕ) (elemdec : Stream → Option (Except Error (α × Stream)))
    (s : Stream) : Option (Except Error (List α × Stream)) :=
  match s.list with
  | .error e => some (.error e)
  | .ok (_, s) => (decodeArrayElems elemdec len s).map fun r =>
      r.bind fun (xs, s) => s.listEnd.map fun s => (xs, s)

def decodeInterface : ℕ → Stream → Option (Except Error (Item × Stream))
  | 0, _ => none
  | fuel + 1, s =>
      match s.kindOf with
      | .error e => some (.error e)
      | .ok ((.list, _), s) =>
          (decodeListSlice (decodeInterface fuel) fuel s).map (Except.map fun (xs, s) => (.list xs, s))
      | .ok (_, s) => some (s.bytes.map fun (b, s) => (.str b, s))

-- Generate the equation lemmas of these definitions once, here, rather than in
-- each of the proofs below that unfold them while they are elaborated in parallel.
section
attribute [local simp] decodeSliceElems decodeInterface
end

/-- The end of `DecodeBytes`: the value, and no trailing data. -/
def decodeEnd {α : Type} (r : Except Error (α × Stream)) : Except Error α :=
  r.bind fun (v, s) => if s.input.length > 0 then .error .moreThanOneValue else .ok v

theorem encodeList_eq_flatten (xs : List Item) : encodeList xs = (xs.map Item.encode).flatten := by
  induction xs with
  | nil => rfl
  | cons x xs ih => simp [encodeList, ih]

theorem encode_list (xs : List Item) :
    (Item.list xs).encode = tag (.list, (encodeList xs).length) ++ encodeList xs := rfl

theorem length_encode_pos (i : Item) : 0 < i.encode.length := by
  cases i with
  | str b =>
      unfold Item.encode
      split_ifs with h
      · match b, h with
        | [_], _ => simp
      · have := length_tag_pos (.string, b.length)
        simp only [tag] at this
        rw [List.length_append]
        omega
  | list xs =>
      have := length_tag_pos (.list, (encodeList xs).length)
      rw [encode_list, List.length_append]
      omega

theorem length_le_encode_str (b : List UInt8) : b.length ≤ (Item.str b).encode.length := by
  unfold Item.encode
  split_ifs <;> simp

theorem length_encode_le_of_mem {x : Item} {xs : List Item} (hx : x ∈ xs) :
    x.encode.length ≤ (xs.map Item.encode).flatten.length :=
  (List.sublist_flatten_of_mem (List.mem_map_of_mem hx)).length_le

theorem append_prefix_of_take {l a b : List UInt8} (ha : l.take a.length = a)
    (hb : b <+: l.drop a.length) : a ++ b <+: l := by
  rw [← List.take_append_drop a.length l, ha]
  exact (List.prefix_append_right_inj a).mpr hb

/-- Two reads, one after the other, read their concatenation. -/
theorem consume_append {s s₁ s' : Stream} {p q : List UInt8} (hb : s.Bounded) (hlen : s.input.length < 2 ^ 64)
    (hp : p <+: s.input) (hs₁ : s.consume p.length = s₁) (hq : q <+: s₁.input) (hs' : s₁.consume q.length = s') :
    p ++ q <+: s.input ∧ s.consume (p ++ q).length = s' := by
  subst hs₁ hs'
  have hall := append_prefix_of_take (List.prefix_iff_eq_take.mp hp).symm (by simpa [consume] using hq)
  refine ⟨hall, ?_⟩
  rw [consume_consume hb (by have := hall.length_le; simp only [List.length_append] at this; omega),
    List.length_append]

/-- What `Bytes` accepts is the encoding of the string it returns. -/
theorem bytes_prefix {s s' : Stream} {b : List UInt8} (hk : s.kind = none) (hb : s.Bounded)
    (h : s.bytes = .ok (b, s')) :
    (Item.str b).encode <+: s.input ∧ s.consume (Item.str b).encode.length = s' := by
  obtain ⟨c, hroom, htake, rfl⟩ := bytes_sound hk h
  have hc : (Item.str b).encode.length = c := by rw [← htake, List.length_take, Nat.min_eq_left hroom.2]
  rw [hc, ← htake]
  exact ⟨List.take_prefix _ _, (advance_eq_consume hb hroom.1.1).symm⟩

theorem except_map_eq_ok {α β : Type} {f : α → β} {r : Except Error (α × Stream)} {v : β} {s' : Stream} :
    r.map (fun x => (f x.1, x.2)) = .ok (v, s') ↔ ∃ a, r = .ok (a, s') ∧ f a = v := by
  rcases r with e | ⟨a, s₁⟩
  · simp [Except.map]
  · simp only [Except.map, Except.ok.injEq, Prod.mk.injEq]
    constructor
    · rintro ⟨rfl, rfl⟩
      exact ⟨a, ⟨rfl, rfl⟩, rfl⟩
    · rintro ⟨a, ⟨rfl, rfl⟩, rfl⟩
      exact ⟨rfl, rfl⟩

theorem option_map_eq_ok {α β : Type} {f : α → β} {r : Option (Except Error (α × Stream))} {v : β}
    {s' : Stream} :
    r.map (Except.map fun x => (f x.1, x.2)) = some (.ok (v, s')) ↔ ∃ a, r = some (.ok (a, s')) ∧ f a = v := by
  rcases r with _ | r
  · simp
  · simp only [Option.map_some, Option.some.injEq, except_map_eq_ok]

/-- `List` succeeds only on a list header. -/
theorem kindOf_of_list {s s₂ : Stream} {P : ℕ} (h : s.list = .ok (P, s₂)) :
    ∃ s₁, s.kindOf = .ok ((.list, P), s₁) ∧ s₂ = s₁.enter P := by
  rcases hkind : s.kindOf with e | ⟨⟨k, n⟩, s₁⟩
  · simp [Stream.list, hkind] at h
  · cases k <;> simp only [Stream.list, hkind, except_ok_bind, except_throw, reduceCtorEq] at h
    simp only [except_pure, Except.ok.injEq, Prod.mk.injEq] at h
    obtain ⟨rfl, rfl⟩ := h
    exact ⟨s₁, rfl, rfl⟩

/-- `dec` reads the value `x` back from an input that starts with `b`, within
the enclosing list and the input limit. -/
def ReadsBack {α : Type} (dec : Stream → Option (Except Error (α × Stream))) (x : α) (b : List UInt8) :
    Prop :=
  ∀ s : Stream, s.kind = none → s.Bounded → s.Room b.length → s.input.take b.length = b →
    dec s = some (.ok (x, s.advance b.length))

/-- What `dec` accepts is the encoding `enc` of a value with the property `Q`. -/
def ReadsOnly {α : Type} (dec : Stream → Option (Except Error (α × Stream))) (Q : α → Prop)
    (enc : α → List UInt8) : Prop :=
  ∀ (s : Stream) (x : α) (s' : Stream), s.kind = none → s.Bounded → s.input.length < 2 ^ 64 →
    dec s = some (.ok (x, s')) → Q x ∧ enc x <+: s.input ∧ s.consume (enc x).length = s'

section Loop

variable {α : Type} {elemdec : Stream → Option (Except Error (α × Stream))}

theorem decodeSliceElems_eol {fuel : ℕ} {s : Stream} (h : elemdec s = some (.error .eol)) :
    decodeSliceElems elemdec (fuel + 1) s = some (.ok ([], s)) := by
  simp [decodeSliceElems, h]

theorem decodeSliceElems_cons {fuel : ℕ} {s s₁ : Stream} {x : α} (h : elemdec s = some (.ok (x, s₁))) :
    decodeSliceElems elemdec (fuel + 1) s =
      (decodeSliceElems elemdec fuel s₁).map (Except.map fun (xs, s₂) => (x :: xs, s₂)) := by
  simp [decodeSliceElems, h]

variable {enc : α → List UInt8}

/-- The loop reads back a list payload, given that the element decoder reads
back each element and reports `EOL` at the end of a list. -/
theorem decodeSliceElems_encode {xs : List α} (helem : ∀ x ∈ xs, ReadsBack elemdec x (enc x))
    (heol : ∀ s : Stream, s.kind = none → s.stack.head? = some 0 → elemdec s = some (.error .eol))
    (hpos : ∀ x ∈ xs, 0 < (enc x).length) :
    ∀ (fuel : ℕ) (s : Stream), (xs.map enc).flatten.length < fuel → s.kind = none → s.Bounded →
      s.stack.head? = some (xs.map enc).flatten.length → s.Room (xs.map enc).flatten.length →
      s.input.take (xs.map enc).flatten.length = (xs.map enc).flatten →
      decodeSliceElems elemdec fuel s = some (.ok (xs, s.advance (xs.map enc).flatten.length)) := by
  induction xs with
  | nil =>
      intro fuel s hfuel hk _ hhead _ _
      obtain ⟨fuel, rfl⟩ : ∃ f, fuel = f + 1 := ⟨fuel - 1, by simp at hfuel; omega⟩
      simp only [List.map_nil, List.flatten_nil, List.length_nil] at hhead ⊢
      rw [decodeSliceElems_eol (heol s hk hhead), advance_zero hk]
  | cons x xs ih =>
      intro fuel s hfuel hk hb hhead hroom htake
      simp only [List.map_cons, List.flatten_cons, List.length_append] at hfuel hhead hroom htake ⊢
      have hx := hpos x (by simp)
      obtain ⟨fuel, rfl⟩ : ∃ f, fuel = f + 1 := ⟨fuel - 1, by omega⟩
      obtain ⟨hfirst, hrest⟩ := take_append_split htake
      have hnext := ih (fun y hy => helem y (by simp [hy])) (fun y hy => hpos y (by simp [hy])) fuel
        (s.advance (enc x).length) (by omega) rfl (hb.advance _)
        (by rw [head_advance hhead, Nat.add_sub_cancel_left]) hroom.advance (by simpa using hrest)
      rw [decodeSliceElems_cons (helem x (by simp) s hk hb (hroom.mono (Nat.le_add_right _ _)) hfirst),
        hnext, advance_advance]
      rfl

/-- What the loop accepts is a concatenation of element encodings, given that
the element decoder accepts only encodings. -/
theorem decodeSliceElems_sound {Q : α → Prop} (helem : ReadsOnly elemdec Q enc) :
    ∀ (fuel : ℕ) (s : Stream) (xs : List α) (s' : Stream), s.kind = none → s.Bounded →
      s.input.length < 2 ^ 64 → decodeSliceElems elemdec fuel s = some (.ok (xs, s')) →
      (∀ x ∈ xs, Q x) ∧ (xs.map enc).flatten <+: s.input ∧ s.consume (xs.map enc).flatten.length = s'
  | 0, _, _, _, _, _, _, h => by simp [decodeSliceElems] at h
  | fuel + 1, s, xs, s', hk, hb, hlen, h => by
      rcases he : elemdec s with _ | (e | ⟨x, s₁⟩)
      · simp [decodeSliceElems, he] at h
      · simp only [decodeSliceElems, he] at h
        split_ifs at h
        · simp only [Option.some.injEq, Except.ok.injEq, Prod.mk.injEq] at h
          obtain ⟨rfl, rfl⟩ := h
          exact ⟨by simp, List.nil_prefix, consume_zero hk hb⟩
        · simp at h
      · obtain ⟨hq, hpre, rfl⟩ := helem s x s₁ hk hb hlen he
        rw [decodeSliceElems_cons he] at h
        rcases hr : decodeSliceElems elemdec fuel (s.consume (enc x).length) with _ | (e | ⟨ys, s₂⟩) <;>
          simp [hr, Except.map] at h
        obtain ⟨rfl, rfl⟩ := h
        have hx := List.prefix_iff_eq_take.mp hpre
        obtain ⟨hqs, hys, rfl⟩ := decodeSliceElems_sound helem fuel _ ys s₂ rfl (hb.consume _)
          (by simp [consume]; omega) hr
        have hall := append_prefix_of_take hx.symm hys
        refine ⟨List.forall_mem_cons.mpr ⟨hq, hqs⟩, by simpa using hall, ?_⟩
        rw [consume_consume hb (by have := hall.length_le; simp only [List.length_append] at this; omega)]
        simp

theorem decodeListSlice_encode {xs : List α} {fuel : ℕ} {s : Stream}
    (helem : ∀ x ∈ xs, ReadsBack elemdec x (enc x))
    (heol : ∀ s : Stream, s.kind = none → s.stack.head? = some 0 → elemdec s = some (.error .eol))
    (hpos : ∀ x ∈ xs, 0 < (enc x).length) (hfuel : (xs.map enc).flatten.length < fuel)
    (hk : s.kind = some (.list, (xs.map enc).flatten.length)) (hb : s.Bounded)
    (hsize : (xs.map enc).flatten.length < 2 ^ 64) (hroom : s.Room (xs.map enc).flatten.length)
    (htake : s.input.take (xs.map enc).flatten.length = (xs.map enc).flatten) :
    decodeListSlice elemdec fuel s = some (.ok (xs, s.advance (xs.map enc).flatten.length)) := by
  have hend := listEnd_enter_advance hb hroom.1.1
  rw [decodeListSlice, list_of_kindOf (kindOf_cached hk)]
  dsimp only
  split_ifs with h0
  · -- an empty payload has no elements
    obtain rfl : xs = [] := by
      cases xs with
      | nil => rfl
      | cons x xs =>
          have := hpos x (by simp)
          simp only [List.map_cons, List.flatten_cons, List.length_append] at h0
          omega
    simp only [List.map_nil, List.flatten_nil, List.length_nil] at hend ⊢
    rw [← advance_zero (show (s.enter 0).kind = none from rfl)]
    simp [hend, Except.map]
  · rw [decodeSliceElems_encode helem heol hpos fuel (s.enter _) hfuel rfl (hb.enter hsize) rfl
      hroom.enter (by simpa [Stream.enter] using htake)]
    simp only [Option.map_some, Except.bind, hend, Except.map]

theorem decodeListSlice_sound {Q : α → Prop} {xs : List α} {fuel P : ℕ} {s s' : Stream}
    (helem : ReadsOnly elemdec Q enc)
    (hk : s.kind = some (.list, P)) (hb : s.Bounded) (hP : P < 2 ^ 64) (hlen : s.input.length < 2 ^ 64)
    (h : decodeListSlice elemdec fuel s = some (.ok (xs, s'))) :
    (∀ x ∈ xs, Q x) ∧ (xs.map enc).flatten <+: s.input ∧ (xs.map enc).flatten.length = P ∧
      s' = s.consume P := by
  rw [decodeListSlice, list_of_kindOf (kindOf_cached hk)] at h
  dsimp only at h
  split_ifs at h with h0
  · rcases hend : (s.enter P).listEnd with e | s₂ <;> simp [hend, Except.map] at h
    obtain ⟨rfl, rfl⟩ := h
    rw [← consume_zero rfl (hb.enter hP)] at hend
    obtain ⟨-, rfl⟩ := listEnd_enter_consume hP (by norm_num) hend
    exact ⟨by simp, List.nil_prefix, h0.symm, rfl⟩
  · rcases hr : decodeSliceElems elemdec fuel (s.enter P) with _ | (e | ⟨ys, s₂⟩)
    · simp [hr] at h
    · simp [hr, Except.bind] at h
    obtain ⟨hqs, hys, rfl⟩ := decodeSliceElems_sound helem fuel _ ys _ rfl (hb.enter hP) hlen hr
    rw [hr, Option.map_some, Option.some.injEq] at h
    rcases hend : ((s.enter P).consume (ys.map enc).flatten.length).listEnd with e | s₃ <;>
      rw [Except.bind, hend] at h
    · simp [Except.map] at h
    simp only [Except.map, Except.ok.injEq, Prod.mk.injEq] at h
    obtain ⟨rfl, rfl⟩ := h
    obtain ⟨hc, rfl⟩ := listEnd_enter_consume hP (lt_of_le_of_lt hys.length_le hlen) hend
    exact ⟨hqs, hys, hc, rfl⟩

/-! The array loop reads exactly as many elements as the array has. -/

theorem decodeArrayElems_encode {xs : List α} (helem : ∀ x ∈ xs, ReadsBack elemdec x (enc x)) :
    ReadsBack (decodeArrayElems elemdec xs.length) xs (xs.map enc).flatten := by
  induction xs with
  | nil =>
      intro s hk _ _ _
      simp [decodeArrayElems, advance_zero hk]
  | cons x xs ih =>
      intro s hk hb hroom htake
      simp only [List.map_cons, List.flatten_cons, List.length_append] at hroom htake ⊢
      obtain ⟨hfirst, hrest⟩ := take_append_split htake
      have hx := helem x (by simp) s hk hb (hroom.mono (Nat.le_add_right _ _)) hfirst
      have hnext := ih (fun y hy => helem y (by simp [hy])) (s.advance (enc x).length) rfl (hb.advance _)
        hroom.advance (by simpa using hrest)
      simp only [List.length_cons, decodeArrayElems, hx, hnext, advance_advance, Option.map_some]
      rfl

theorem decodeListArray_encode {xs : List α} {s : Stream}
    (helem : ∀ x ∈ xs, ReadsBack elemdec x (enc x))
    (hk : s.kind = some (.list, (xs.map enc).flatten.length)) (hb : s.Bounded)
    (hsize : (xs.map enc).flatten.length < 2 ^ 64) (hroom : s.Room (xs.map enc).flatten.length)
    (htake : s.input.take (xs.map enc).flatten.length = (xs.map enc).flatten) :
    decodeListArray xs.length elemdec s = some (.ok (xs, s.advance (xs.map enc).flatten.length)) := by
  have hend := listEnd_enter_advance hb hroom.1.1
  rw [decodeListArray, list_of_kindOf (kindOf_cached hk)]
  dsimp only
  rw [decodeArrayElems_encode helem _ rfl (hb.enter hsize) hroom.enter (by simpa [Stream.enter] using htake)]
  simp only [Option.map_some, Except.bind, hend, Except.map]

theorem decodeArrayElems_sound {Q : α → Prop} (helem : ReadsOnly elemdec Q enc) :
    ∀ (n : ℕ) (s : Stream) (xs : List α) (s' : Stream), s.kind = none → s.Bounded →
      s.input.length < 2 ^ 64 → decodeArrayElems elemdec n s = some (.ok (xs, s')) →
      xs.length = n ∧ (∀ x ∈ xs, Q x) ∧ (xs.map enc).flatten <+: s.input ∧
        s.consume (xs.map enc).flatten.length = s'
  | 0, s, xs, s', hk, hb, _, h => by
      simp only [decodeArrayElems, Option.some.injEq, Except.ok.injEq, Prod.mk.injEq] at h
      obtain ⟨rfl, rfl⟩ := h
      exact ⟨rfl, by simp, List.nil_prefix, consume_zero hk hb⟩
  | n + 1, s, xs, s', hk, hb, hlen, h => by
      rcases he : elemdec s with _ | (e | ⟨x, s₁⟩) <;> simp only [decodeArrayElems, he] at h
      · simp at h
      · simp at h
      obtain ⟨hq, hpre, rfl⟩ := helem s x s₁ hk hb hlen he
      rcases hr : decodeArrayElems elemdec n (s.consume (enc x).length) with _ | (e | ⟨ys, s₂⟩) <;>
        simp [hr, Except.map] at h
      obtain ⟨rfl, rfl⟩ := h
      have hx := List.prefix_iff_eq_take.mp hpre
      obtain ⟨hn, hqs, hys, rfl⟩ := decodeArrayElems_sound helem n _ ys s₂ rfl (hb.consume _)
        (by simp [consume]; omega) hr
      have hall := append_prefix_of_take hx.symm hys
      refine ⟨by simp [hn], List.forall_mem_cons.mpr ⟨hq, hqs⟩, by simpa using hall, ?_⟩
      rw [consume_consume hb (by have := hall.length_le; simp only [List.length_append] at this; omega)]
      simp

theorem decodeListArray_sound {Q : α → Prop} {xs : List α} {len P : ℕ} {s s' : Stream}
    (helem : ReadsOnly elemdec Q enc)
    (hk : s.kind = some (.list, P)) (hb : s.Bounded) (hP : P < 2 ^ 64) (hlen : s.input.length < 2 ^ 64)
    (h : decodeListArray len elemdec s = some (.ok (xs, s'))) :
    xs.length = len ∧ (∀ x ∈ xs, Q x) ∧ (xs.map enc).flatten <+: s.input ∧
      (xs.map enc).flatten.length = P ∧ s' = s.consume P := by
  rw [decodeListArray, list_of_kindOf (kindOf_cached hk)] at h
  dsimp only at h
  rcases hr : decodeArrayElems elemdec len (s.enter P) with _ | (e | ⟨ys, s₂⟩)
  · simp [hr] at h
  · simp [hr, Except.bind] at h
  obtain ⟨hn, hqs, hys, rfl⟩ := decodeArrayElems_sound helem len _ ys _ rfl (hb.enter hP) hlen hr
  rw [hr, Option.map_some, Option.some.injEq] at h
  rcases hend : ((s.enter P).consume (ys.map enc).flatten.length).listEnd with e | s₃ <;>
    rw [Except.bind, hend] at h
  · simp [Except.map] at h
  simp only [Except.map, Except.ok.injEq, Prod.mk.injEq] at h
  obtain ⟨rfl, rfl⟩ := h
  obtain ⟨hc, rfl⟩ := listEnd_enter_consume hP (lt_of_le_of_lt hys.length_le hlen) hend
  exact ⟨hn, hqs, hys, hc, rfl⟩

end Loop

theorem decodeInterface_eol {fuel : ℕ} {s : Stream} (hk : s.kind = none) (h0 : s.stack.head? = some 0) :
    decodeInterface (fuel + 1) s = some (.error .eol) := by
  simp [decodeInterface, kindOf_eol hk h0]

theorem decodeInterface_of_list {fuel P : ℕ} {s s₁ : Stream} (h : s.kindOf = .ok ((.list, P), s₁)) :
    decodeInterface (fuel + 1) s =
      (decodeListSlice (decodeInterface fuel) fuel s₁).map (Except.map fun (xs, s) => (.list xs, s)) := by
  simp only [decodeInterface, h]

theorem decodeInterface_of_kindOf {fuel : ℕ} {s s₁ : Stream} {kn : Kind × ℕ}
    (h : s.kindOf = .ok (kn, s₁)) (hkn : kn.1 ≠ .list) :
    decodeInterface (fuel + 1) s = some (s.bytes.map fun (b, s) => (.str b, s)) := by
  obtain ⟨k, n⟩ := kn
  rw [← bytes_of_kindOf h]
  cases k with
  | list => exact absurd rfl hkn
  | byte x => simp only [decodeInterface, h]
  | string => simp only [decodeInterface, h]

theorem decodeInterface_of_bytes {fuel : ℕ} {s s' : Stream} {b : List UInt8} (h : s.bytes = .ok (b, s')) :
    decodeInterface (fuel + 1) s = some (.ok (.str b, s')) := by
  rcases hkind : s.kindOf with e | ⟨⟨k, n⟩, s₁⟩
  · simp [bytes, hkind] at h
  · have hk : k ≠ .list := by
      rintro rfl
      simp [bytes, hkind] at h
    rw [decodeInterface_of_kindOf hkind hk, h]
    rfl

/-- `decodeInterface` reads back the encoding of a value. -/
theorem decodeInterface_encode : ∀ (fuel : ℕ) (i : Item) (s : Stream), i.encode.length < fuel →
    i.encode.length < 2 ^ 64 → s.kind = none → s.Bounded → s.Room i.encode.length →
    s.input.take i.encode.length = i.encode →
    decodeInterface fuel s = some (.ok (i, s.advance i.encode.length))
  | 0, _, _, hfuel, _, _, _, _, _ => absurd hfuel (Nat.not_lt_zero _)
  | fuel + 1, .str b, s, _, hfit, hk, _, hroom, htake =>
      decodeInterface_of_bytes (bytes_encode hk (lt_of_le_of_lt (length_le_encode_str b) hfit) hroom htake)
  | fuel + 1, .list xs, s, hfuel, hfit, hk, hb, hroom, htake => by
      rw [encode_list, encodeList_eq_flatten] at hfuel hfit hroom htake ⊢
      simp only [List.length_append] at hfuel hfit hroom htake ⊢
      have htagpos := length_tag_pos (.list, (xs.map Item.encode).flatten.length)
      obtain ⟨htag, hcontent⟩ := take_append_split htake
      have hkind := @kindOf_tag s (.list, (xs.map Item.encode).flatten.length) hk
        (by simp only [Tagged]; omega) hroom htag
      rw [decodeInterface_of_list hkind, ← cached_advance _ _ _ (.list, (xs.map Item.encode).flatten.length)]
      rw [decodeListSlice_encode (fun x hx t htk htb htroom httake => decodeInterface_encode fuel x t
          (by have := length_encode_le_of_mem hx; omega) (by have := length_encode_le_of_mem hx; omega)
          htk htb htroom httake)
        (fun t htk ht0 => by
          obtain ⟨f, rfl⟩ : ∃ f, fuel = f + 1 := ⟨fuel - 1, by omega⟩
          exact decodeInterface_eol htk ht0)
        (fun x _ => length_encode_pos x) (by omega) rfl
        (show (s.cached _ (.list, (xs.map Item.encode).flatten.length)).Bounded from hb.advance _) (by omega)
        (Room.cached.mpr hroom.advance) (by simpa [Stream.cached] using hcontent)]
      rfl

/-- What `decodeInterface` accepts is the encoding of the value it returns. -/
theorem decodeInterface_sound : ∀ (fuel : ℕ) (s : Stream) (i : Item) (s' : Stream), s.kind = none →
    s.Bounded → s.input.length < 2 ^ 64 → decodeInterface fuel s = some (.ok (i, s')) →
    i.encode <+: s.input ∧ s.consume i.encode.length = s'
  | 0, _, _, _, _, _, _, h => by simp [decodeInterface] at h
  | fuel + 1, s, i, s', hk, hb, hlen, h => by
      rcases hkind : s.kindOf with e | ⟨⟨k, P⟩, s₁⟩
      · simp [decodeInterface, hkind] at h
      obtain ⟨htag, hroom, htake, rfl⟩ := kindOf_sound hk hkind
      cases k with
      | list =>
          rw [decodeInterface_of_list hkind] at h
          rcases hr : decodeListSlice (decodeInterface fuel) fuel
              (s.cached (tag (.list, P)).length (.list, P)) with _ | (e | ⟨xs, s₂⟩) <;>
            simp [hr, Except.map] at h
          obtain ⟨rfl, rfl⟩ := h
          obtain ⟨-, hpre, hP, rfl⟩ := decodeListSlice_sound (Q := fun _ => True)
            (fun t x t' htk htb htlen he => ⟨trivial, decodeInterface_sound fuel t x t' htk htb htlen he⟩)
            rfl (show (s.cached _ (.list, P)).Bounded from hb.advance _) htag (by simp [Stream.cached]; omega) hr
          rw [encode_list, encodeList_eq_flatten, hP]
          have hall := append_prefix_of_take htake (by simpa [Stream.cached] using hpre)
          refine ⟨hall, ?_⟩
          rw [consume_cached, advance_eq_consume hb hroom.1.1, consume_consume hb
            (by have := hall.length_le; simp only [List.length_append] at this; omega),
            List.length_append, hP]
      | byte x | string =>
          rw [decodeInterface_of_kindOf hkind (by simp)] at h
          rcases hbytes : s.bytes with e | ⟨b, s₂⟩ <;> simp [hbytes, Except.map] at h
          obtain ⟨rfl, rfl⟩ := h
          exact bytes_prefix hk hb hbytes

end GoQuai.Rlp
