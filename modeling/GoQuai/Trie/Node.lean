import Mathlib.Logic.Function.Basic
import Mathlib.Data.List.Basic

/-! # The in-memory Merkle-Patricia trie

The nodes of `trie/node.go` and the recursions of `trie/trie.go` that build
and read an in-memory trie: `tryGet`, `insert`, `delete`, and `TryUpdate` and
`TryDelete` on the root. Keys are nibble strings (`keybytesToHex`), ended by
the terminator `16`. A trie built in memory has no `hashNode`, so `resolve` is
the identity and the `hashNode` cases are left out; the cached hash and dirty
flag of a node are left out too. A panic (an index out of range, a failed
type assertion, an invalid node) is `none`. `insert` and `delete` return
Go's `dirty` flag with the node.
-/

namespace GoQuai.Trie

/-- `keybytesToHex`: two nibbles a byte, then the terminator. -/
def keybytesToHex (str : List UInt8) : List ℕ :=
  str.flatMap (fun b => [b.toNat / 16, b.toNat % 16]) ++ [16]

/-- `prefixLen`. -/
def prefixLen : List ℕ → List ℕ → ℕ
  | a :: as, b :: bs => if a = b then prefixLen as bs + 1 else 0
  | _, _ => 0

/-- `node`: `nil`, `valueNode`, `shortNode` and `fullNode`. -/
inductive Node
  | nil
  | value (v : List UInt8)
  | short (key : List ℕ) (val : Node)
  | full (children : Fin 17 → Node)

def Node.isNil : Node → Bool
  | .nil => true
  | _ => false

/-- `tryGet`: the value under a key; `some none` is Go's nil. -/
def tryGet : Node → List ℕ → Option (Option (List UInt8))
  | .nil, _ => some none
  | .value v, _ => some (some v)
  | .short k c, key =>
      if key.length < k.length ∨ k ≠ key.take k.length then some none
      else tryGet c (key.drop k.length)
  | .full cs, key =>
      match key with
      | [] => none
      | i :: rest => if h : i < 17 then tryGet (cs ⟨i, h⟩) rest else none

/-- `insert` into nil, which the branch case of `insert` calls. -/
def insertNil (key : List ℕ) (value : Node) : Node := if key = [] then value else .short key value

/-- `insert`. -/
def insert : Node → List ℕ → Node → Option (Bool × Node)
  | .value v, [], value =>
      match value with
      | .value w => some (decide (v ≠ w), value)
      | _ => none
  | _, [], value => some (true, value)
  | .short k c, key@(_ :: _), value =>
      let matchlen := prefixLen key k
      if matchlen = k.length then
        match insert c (key.drop matchlen) value with
        | none => none
        | some (false, _) => some (false, .short k c)
        | some (true, nn) => some (true, .short k nn)
      else
        -- branch out where the keys differ
        match k[matchlen]?, key[matchlen]? with
        | some a, some b =>
            if ha : a < 17 then
              if hb : b < 17 then
                let branch := Function.update
                  (Function.update (fun _ => Node.nil) ⟨a, ha⟩ (insertNil (k.drop (matchlen + 1)) c))
                  ⟨b, hb⟩ (insertNil (key.drop (matchlen + 1)) value)
                if matchlen = 0 then some (true, .full branch)
                else some (true, .short (key.take matchlen) (.full branch))
              else none
            else none
        | _, _ => none
  | .full cs, i :: rest, value =>
      if h : i < 17 then
        match insert (cs ⟨i, h⟩) rest value with
        | none => none
        | some (false, _) => some (false, .full cs)
        | some (true, nn) => some (true, .full (Function.update cs ⟨i, h⟩ nn))
      else none
  | .nil, key@(_ :: _), value => some (true, .short key value)
  | .value _, _ :: _, _ => none

/-- The loop of `delete` over the children left: `-1` for none, the index of
the only one, `-2` for two or more. -/
def reducePos (cs : Fin 17 → Node) : List (Fin 17) → Int → Int
  | [], pos => pos
  | i :: is, pos =>
      if (cs i).isNil then reducePos cs is pos
      else if pos = -1 then reducePos cs is i
      else -2

/-- `delete`. -/
def delete : Node → List ℕ → Option (Bool × Node)
  | .short k c, key =>
      let matchlen := prefixLen key k
      if matchlen < k.length then some (false, .short k c)
      else if matchlen = key.length then some (true, .nil)
      else
        match delete c (key.drop k.length) with
        | none => none
        | some (false, _) => some (false, .short k c)
        | some (true, .short ck cv) => some (true, .short (k ++ ck) cv)
        | some (true, child) => some (true, .short k child)
  | .full cs, key =>
      match key with
      | [] => none
      | i :: rest =>
          if h : i < 17 then
            match delete (cs ⟨i, h⟩) rest with
            | none => none
            | some (false, _) => some (false, .full cs)
            | some (true, nn) =>
                let cs' := Function.update cs ⟨i, h⟩ nn
                if !nn.isNil then some (true, .full cs')
                else
                  let pos := reducePos cs' (List.finRange 17) (-1)
                  if hpos : 0 ≤ pos ∧ pos < 17 then
                    let p : Fin 17 := ⟨pos.toNat, by omega⟩
                    if p.val ≠ 16 then
                      match cs' p with
                      | .short ck cv => some (true, .short (p.val :: ck) cv)
                      | _ => some (true, .short [p.val] (cs' p))
                    else some (true, .short [p.val] (cs' p))
                  else some (true, .full cs')
          else none
  | .value _, _ => some (true, .nil)
  | .nil, _ => some (false, .nil)

/-- `TryUpdate` on the root: an empty value deletes. -/
def tryUpdate (root : Node) (key value : List UInt8) : Option Node :=
  if value.length ≠ 0 then (insert root (keybytesToHex key) (.value value)).map Prod.snd
  else (delete root (keybytesToHex key)).map Prod.snd

/-- `TryDelete` on the root. -/
def tryDelete (root : Node) (key : List UInt8) : Option Node :=
  (delete root (keybytesToHex key)).map Prod.snd

/-- `TryGet` on the root. -/
def get (root : Node) (key : List UInt8) : Option (Option (List UInt8)) := tryGet root (keybytesToHex key)

/-- The writes a trie is built from. -/
inductive Op
  | update (key value : List UInt8)
  | delete (key : List UInt8)

def Op.apply (root : Node) : Op → Option Node
  | .update key value => tryUpdate root key value
  | .delete key => tryDelete root key

/-- The root after a sequence of writes. -/
def run : List Op → Node → Option Node
  | [], n => some n
  | op :: ops, n => (op.apply n).bind (run ops)

-- Generate the equation lemmas of these definitions once, here, rather than in
-- each of the proofs below that unfold them while they are elaborated in parallel.
section
attribute [local simp] prefixLen tryGet insert delete run
end

example : (run [.update [0x12] [1], .update [0x13] [2], .delete [0x12]] .nil).bind (fun n => get n [0x13]) =
    some (some [2]) := rfl

/-! ## Keys -/

theorem insert_nil (key : List ℕ) (value : Node) : insert .nil key value = some (true, insertNil key value) := by
  cases key <;> rfl

theorem prefixLen_le_left : ∀ (a b : List ℕ), prefixLen a b ≤ a.length
  | _ :: a, _ :: b => by
      simp only [prefixLen]
      split_ifs
      · have := prefixLen_le_left a b
        simp only [List.length_cons]
        omega
      · exact Nat.zero_le _
  | [], _ => Nat.zero_le _
  | _ :: _, [] => Nat.zero_le _

theorem prefixLen_le_right : ∀ (a b : List ℕ), prefixLen a b ≤ b.length
  | _ :: a, _ :: b => by
      simp only [prefixLen]
      split_ifs
      · have := prefixLen_le_right a b
        simp only [List.length_cons]
        omega
      · exact Nat.zero_le _
  | [], _ => Nat.zero_le _
  | _ :: _, [] => Nat.zero_le _

theorem take_prefixLen : ∀ (a b : List ℕ), a.take (prefixLen a b) = b.take (prefixLen a b)
  | x :: a, y :: b => by
      simp only [prefixLen]
      split_ifs with h
      · subst h
        simp [take_prefixLen a b]
      · rfl
  | [], _ => rfl
  | _ :: _, [] => rfl

/-- Where the common prefix stops inside both lists, they differ. -/
theorem getElem_prefixLen_ne : ∀ (a b : List ℕ) (ha : prefixLen a b < a.length) (hb : prefixLen a b < b.length),
    a[prefixLen a b] ≠ b[prefixLen a b]
  | x :: a, y :: b, ha, hb => by
      by_cases h : x = y
      · subst h
        simp only [prefixLen, if_true, List.length_cons, Nat.add_lt_add_iff_right] at ha hb ⊢
        simpa using getElem_prefixLen_ne a b ha hb
      · simp [prefixLen, h]
  | [], _, ha, _ => absurd ha (by simp [prefixLen])
  | _ :: _, [], _, hb => absurd hb (by simp [prefixLen])

theorem prefixLen_eq_length_iff {a b : List ℕ} : prefixLen a b = b.length ↔ b <+: a := by
  induction b generalizing a with
  | nil => simp [prefixLen]
  | cons y b ih =>
      cases a with
      | nil => simp [prefixLen]
      | cons x a =>
          by_cases h : x = y
          · subst h
            simp [prefixLen, ih]
          · simp [prefixLen, h, Ne.symm h]

/-- A nibble string: no terminator. -/
def Nibbles (l : List ℕ) : Prop := ∀ x ∈ l, x < 16

/-- A key as `keybytesToHex` makes them: nibbles, then the terminator. -/
def Terminated (key : List ℕ) : Prop := ∃ l, Nibbles l ∧ key = l ++ [16]

theorem terminated_keybytesToHex (str : List UInt8) : Terminated (keybytesToHex str) := by
  refine ⟨_, fun x hx => ?_, rfl⟩
  simp only [List.mem_flatMap, List.mem_cons, List.not_mem_nil, or_false] at hx
  obtain ⟨b, -, rfl | rfl⟩ := hx
  · have := b.toNat_lt
    omega
  · exact Nat.mod_lt _ (by decide)

theorem keybytesToHex_cons (b : UInt8) (str : List UInt8) :
    keybytesToHex (b :: str) = b.toNat / 16 :: b.toNat % 16 :: keybytesToHex str := by
  simp [keybytesToHex]

theorem keybytesToHex_inj : ∀ {s₁ s₂ : List UInt8}, keybytesToHex s₁ = keybytesToHex s₂ → s₁ = s₂
  | [], [], _ => rfl
  | [], b :: _, h => by
      rw [keybytesToHex_cons] at h
      simp [keybytesToHex] at h
  | b :: _, [], h => by
      rw [keybytesToHex_cons] at h
      simp [keybytesToHex] at h
  | b₁ :: s₁, b₂ :: s₂, h => by
      rw [keybytesToHex_cons, keybytesToHex_cons] at h
      simp only [List.cons.injEq] at h
      obtain ⟨hdiv, hmod, h⟩ := h
      have hb : b₁.toNat = b₂.toNat := by
        rw [← Nat.div_add_mod b₁.toNat 16, ← Nat.div_add_mod b₂.toNat 16, hdiv, hmod]
      rw [UInt8.toNat_inj.mp hb, keybytesToHex_inj h]

/-- A terminated key has its terminator at the end only. -/
theorem Terminated.eq_of_prefix {k key : List ℕ} (hk : Terminated k) (hkey : Terminated key)
    (h : k <+: key) : k = key := by
  obtain ⟨l, hl, rfl⟩ := hk
  obtain ⟨m, hm, rfl⟩ := hkey
  obtain ⟨r, hr⟩ := h
  cases r with
  | nil => simpa using hr
  | cons x r =>
      exfalso
      -- the terminator of `k` would sit among the nibbles of `key`
      have hlt : l.length < m.length := by
        have := congrArg List.length hr
        simp only [List.length_append, List.length_cons, List.length_nil] at this
        omega
      have hget : m[l.length]? = some 16 := by
        rw [← List.getElem?_append_left hlt, ← hr]
        simp
      exact absurd (hm 16 (List.mem_of_getElem? hget)) (by decide)

end GoQuai.Trie
