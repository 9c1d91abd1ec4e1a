import GoQuai.Trie.Node
import GoQuai.Lib.PrefixMap
import Mathlib

/-! # What an in-memory trie holds

`tryGet` reads a trie as a map from terminated keys. Below the root, the tries
that `insert` and `delete` build satisfy `Good`: a node sits at the path of
nibbles that leads to it, a `valueNode` only at the end of a key, and a
`shortNode` holds a `fullNode` or a `valueNode`. On such a trie `insert` writes
one key and `delete` erases one, and the `dirty` flag each returns says whether
the trie changed. Lifted to byte keys, every trie that `TryUpdate` and
`TryDelete` build from the empty one holds the map of the same writes.
-/

namespace GoQuai.Trie

/-! ## Paths -/

theorem nibbles_append {a b : List ℕ} : Nibbles (a ++ b) ↔ Nibbles a ∧ Nibbles b := by
  simp only [Nibbles, List.mem_append, or_imp, forall_and]

/-- A path a key runs along: nibbles, and the terminator at most at the end. -/
def OnKey (p : List ℕ) : Prop := Nibbles p ∨ Terminated p

theorem Terminated.onKey {p : List ℕ} (h : Terminated p) : OnKey p := Or.inr h

/-- Before an entry of a path a key runs along, there are only nibbles. -/
theorem OnKey.nibbles_of_cons {l r : List ℕ} {x : ℕ} (h : OnKey (l ++ x :: r)) : Nibbles l := by
  rcases h with h | ⟨w, hw, he⟩
  · exact (nibbles_append.mp h).1
  · have hlen : l.length ≤ w.length := by
      have := congrArg List.length he
      simp only [List.length_append, List.length_cons, List.length_nil] at this
      omega
    have htake : (l ++ x :: r).take l.length = l := List.take_left
    rw [he, List.take_append_of_le_length hlen] at htake
    rw [← htake]
    exact fun y hy => hw y (List.mem_of_mem_take hy)

theorem Terminated.ne_nil_of_nibbles {p q : List ℕ} (hp : Nibbles p) (h : Terminated (p ++ q)) : q ≠ [] := by
  rintro rfl
  obtain ⟨l, -, he⟩ := h
  have h16 : 16 ∈ p := by
    rw [List.append_nil] at he
    rw [he]
    simp
  exact absurd (hp 16 h16) (by decide)

/-- Two keys that run along one path agree when one is a prefix of the other. -/
theorem Terminated.eq_of_append_prefix {p q r : List ℕ} (hq : Terminated (p ++ q)) (hr : Terminated (p ++ r))
    (h : q <+: r) : q = r := by
  have := Terminated.eq_of_prefix hq hr ((List.prefix_append_right_inj p).mpr h)
  exact List.append_cancel_left this

theorem Terminated.not_nibbles {p : List ℕ} (h : Terminated p) : ¬ Nibbles p := fun hn =>
  absurd (hn 16 (by obtain ⟨l, -, rfl⟩ := h; simp)) (by decide)

theorem OnKey.lt_seventeen {p : List ℕ} (h : OnKey p) {x : ℕ} (hx : x ∈ p) : x < 17 := by
  rcases h with h | ⟨l, hl, rfl⟩
  · exact Nat.lt_succ_of_lt (h x hx)
  · rcases List.mem_append.mp hx with hx | hx
    · exact Nat.lt_succ_of_lt (hl x hx)
    · rw [List.mem_singleton.mp hx]
      decide

/-! ## Reading a trie -/

theorem tryGet_short (k : List ℕ) (c : Node) (q : List ℕ) :
    tryGet (.short k c) q = if k <+: q then tryGet c (q.drop k.length) else some none := by
  by_cases h : k <+: q
  · have hk : k = q.take k.length := List.prefix_iff_eq_take.mp h
    have hlen : ¬ q.length < k.length := not_lt.mpr h.length_le
    simp only [tryGet, hlen, false_or, if_pos h, ← hk, ne_eq, not_true_eq_false, if_false]
  · have hc : q.length < k.length ∨ k ≠ q.take k.length := by
      by_contra hc
      push Not at hc
      exact h (List.prefix_iff_eq_take.mpr hc.2)
    simp only [tryGet, if_pos hc, if_neg h]

theorem tryGet_short_nil (c : Node) (q : List ℕ) : tryGet (.short [] c) q = tryGet c q := by
  simp [tryGet_short]

theorem tryGet_insertNil (r : List ℕ) (c : Node) (q : List ℕ) :
    tryGet (insertNil r c) q = tryGet (.short r c) q := by
  unfold insertNil
  split_ifs with h
  · rw [h, tryGet_short_nil]
  · rfl

theorem tryGet_short_append (k₁ k₂ : List ℕ) (c : Node) (q : List ℕ) :
    tryGet (.short (k₁ ++ k₂) c) q = tryGet (.short k₁ (.short k₂ c)) q := by
  rw [tryGet_short, tryGet_short]
  by_cases h : k₁ <+: q
  · obtain ⟨r, rfl⟩ := h
    rw [if_pos (List.prefix_append _ _), List.drop_left, tryGet_short]
    simp only [List.prefix_append_right_inj, List.length_append, ← List.drop_drop, List.drop_left]
  · have h' : ¬ k₁ ++ k₂ <+: q := fun h' => h ((List.prefix_append _ _).trans h')
    rw [if_neg h', if_neg h]

/-- Past a common prefix, a `shortNode` is read at the first entry. -/
theorem tryGet_short_append_cons (t s r : List ℕ) (x j : ℕ) (c : Node) :
    tryGet (.short (t ++ x :: s) c) (t ++ j :: r) = if j = x then tryGet (.short s c) r else some none := by
  rw [tryGet_short_append, tryGet_short, if_pos (List.prefix_append _ _), List.drop_left, tryGet_short]
  simp only [List.cons_prefix_cons]
  by_cases hj : j = x
  · subst hj
    simp [tryGet_short]
  · simp [hj, Ne.symm hj]

theorem tryGet_full_cons (cs : Fin 17 → Node) {i : ℕ} (h : i < 17) (rest : List ℕ) :
    tryGet (.full cs) (i :: rest) = tryGet (cs ⟨i, h⟩) rest := by
  simp [tryGet, h]

/-! ## Good tries -/

/-- What a `shortNode` holds in a trie built in memory. -/
def ShortChild : Node → Prop
  | .full _ | .value _ => True
  | _ => False

/-- A node at path `p` of a trie that `insert` and `delete` build. -/
inductive Good : List ℕ → Node → Prop
  | nil {p : List ℕ} : Good p .nil
  | value {p : List ℕ} {v : List UInt8} : Terminated p → Good p (.value v)
  | short {p k : List ℕ} {c : Node} : Nibbles p → ShortChild c → Good (p ++ k) c → Good p (.short k c)
  | full {p : List ℕ} {cs : Fin 17 → Node} :
      Nibbles p → (∀ i : Fin 17, Good (p ++ [i.val]) (cs i)) → Good p (.full cs)

theorem Good.onKey {p : List ℕ} {c : Node} (h : Good p c) (hc : ShortChild c) : OnKey p := by
  cases h with
  | value ht => exact ht.onKey
  | full hp _ => exact Or.inl hp
  | nil | short => exact absurd hc id

/-- At the end of a key there is a value or nothing. -/
theorem Good.of_terminated {p : List ℕ} {n : Node} (h : Good p n) (hp : Terminated p) :
    n = .nil ∨ ∃ v, n = .value v := by
  cases h with
  | nil => exact Or.inl rfl
  | value => exact Or.inr ⟨_, rfl⟩
  | short hn => exact absurd hn hp.not_nibbles
  | full hn => exact absurd hn hp.not_nibbles

theorem Good.update {p : List ℕ} {cs : Fin 17 → Node} (hp : Nibbles p) (hcs : ∀ j : Fin 17, Good (p ++ [j.val]) (cs j))
    {i : Fin 17} {c' : Node} (hc' : Good (p ++ [i.val]) c') : Good p (.full (Function.update cs i c')) := by
  refine .full hp fun j => ?_
  rw [Function.update_apply]
  split_ifs with hj
  · exact hj ▸ hc'
  · exact hcs j

theorem Good.insertNil {p r : List ℕ} {c : Node} (hc : Good (p ++ r) c) (hs : r ≠ [] → Nibbles p ∧ ShortChild c) :
    Good p (insertNil r c) := by
  unfold Trie.insertNil
  split_ifs with hr
  · subst hr
    simpa using hc
  · exact .short (hs hr).1 (hs hr).2 hc

/-- Below `p`, `n'` holds what `n` holds, except `x` at `key`. -/
def Overwrites (p : List ℕ) (n n' : Node) (key : List ℕ) (x : Option (List UInt8)) : Prop :=
  ∀ q, Terminated (p ++ q) → tryGet n' q = if q = key then some x else tryGet n q

theorem Overwrites.short {p k r : List ℕ} {c c' : Node} {x : Option (List UInt8)}
    (h : Overwrites (p ++ k) c c' r x) : Overwrites p (.short k c) (.short k c') (k ++ r) x := by
  intro q hq
  rw [tryGet_short, tryGet_short]
  by_cases hk : k <+: q
  · obtain ⟨s, rfl⟩ := hk
    rw [if_pos (List.prefix_append _ _), List.drop_left, h s (by simpa using hq)]
    simp only [List.append_cancel_left_eq, List.prefix_append, if_true]
  · have hne : q ≠ k ++ r := fun he => hk (he ▸ List.prefix_append _ _)
    simp only [hk, hne, if_false]

theorem Overwrites.full {p rest : List ℕ} {i : ℕ} (hi : i < 17) {cs : Fin 17 → Node} {c' : Node}
    {x : Option (List UInt8)} (hp : Nibbles p) (h : Overwrites (p ++ [i]) (cs ⟨i, hi⟩) c' rest x) :
    Overwrites p (.full cs) (.full (Function.update cs ⟨i, hi⟩ c')) (i :: rest) x := by
  intro q hq
  obtain ⟨j, r, rfl⟩ := List.exists_cons_of_ne_nil (hq.ne_nil_of_nibbles hp)
  have hj : j < 17 := hq.onKey.lt_seventeen (by simp)
  rw [tryGet_full_cons _ hj, tryGet_full_cons _ hj, Function.update_apply]
  by_cases hji : j = i
  · subst hji
    rw [if_pos rfl, h r (by simpa using hq)]
    simp only [List.cons.injEq, true_and]
  · have hne : (⟨j, hj⟩ : Fin 17) ≠ ⟨i, hi⟩ := fun he => hji (Fin.mk.inj_iff.mp he)
    simp only [hne, hji, List.cons.injEq, false_and, if_false]

/-- What a write of `x` at `key` did to the node `n` at `p`: `n'` is good,
holds `x` at `key` and what `n` held elsewhere, and `d` is false exactly
when `n` held `x` already, and then `n'` is `n`. -/
structure Wrote (p : List ℕ) (n : Node) (key : List ℕ) (x : Option (List UInt8)) (d : Bool) (n' : Node) :
    Prop where
  good : Good p n'
  dirty : d = false ↔ tryGet n key = some x
  same : d = false → n' = n
  holds : Overwrites p n n' key x

theorem Wrote.unchanged {p key : List ℕ} {n : Node} {x : Option (List UInt8)} (hn : Good p n)
    (h : tryGet n key = some x) : Wrote p n key x false n := by
  refine ⟨hn, iff_of_true rfl h, fun _ => rfl, fun q _ => ?_⟩
  split_ifs with hq
  · rw [hq, h]
  · rfl

theorem Wrote.changed {p key : List ℕ} {n n' : Node} {x : Option (List UInt8)} (hn' : Good p n')
    (h : tryGet n key ≠ some x) (holds : Overwrites p n n' key x) : Wrote p n key x true n' :=
  ⟨hn', iff_of_false (by decide) h, nofun, holds⟩

theorem Wrote.lift {p p' key key' : List ℕ} {n c c' : Node} {x : Option (List UInt8)} {d : Bool}
    (wrap : Node → Node) (hw : Wrote p' c key' x d c') (hget : tryGet n key = tryGet c key') (hn : Good p n)
    (hgood : d = true → Good p (wrap c')) (holds : Overwrites p' c c' key' x → Overwrites p n (wrap c') key x) :
    Wrote p n key x d (if d then wrap c' else n) := by
  cases d
  · exact Wrote.unchanged hn (hget ▸ hw.dirty.mp rfl)
  · refine Wrote.changed (hgood rfl) (fun h => ?_) (holds hw.holds)
    rw [hget] at h
    exact absurd (hw.dirty.mpr h) (by decide)

/-! ## Lists that part -/

theorem prefixLen_fork (t s s' : List ℕ) {a b : ℕ} (hab : b ≠ a) : prefixLen (t ++ b :: s') (t ++ a :: s) = t.length := by
  induction t with
  | nil => simp [prefixLen, hab]
  | cons x t ih => simp [prefixLen, ih]

/-- Two lists, neither of which starts the other, part after a common prefix. -/
theorem exists_fork {k key : List ℕ} (hk : ¬ k <+: key) (hkey : ¬ key <+: k) :
    ∃ t a s b s', k = t ++ a :: s ∧ key = t ++ b :: s' ∧ a ≠ b := by
  have hmk : prefixLen key k < k.length :=
    lt_of_le_of_ne (prefixLen_le_right key k) fun h => hk (prefixLen_eq_length_iff.mp h)
  have hmkey : prefixLen key k < key.length := by
    refine lt_of_le_of_ne (prefixLen_le_left key k) fun h => hkey ?_
    have htake := take_prefixLen key k
    rw [h, List.take_length] at htake
    exact htake ▸ List.take_prefix _ _
  refine ⟨k.take (prefixLen key k), k[prefixLen key k], k.drop (prefixLen key k + 1), key[prefixLen key k],
    key.drop (prefixLen key k + 1), ?_, ?_, (getElem_prefixLen_ne key k hmkey hmk).symm⟩
  · rw [← List.drop_eq_getElem_cons hmk, List.take_append_drop]
  · rw [← List.drop_eq_getElem_cons hmkey, ← take_prefixLen key k, List.take_append_drop]

/-! ## Insert -/

theorem tryGet_short_append_self (k r : List ℕ) (c : Node) : tryGet (.short k c) (k ++ r) = tryGet c r := by
  rw [tryGet_short, if_pos (List.prefix_append _ _), List.drop_left]

theorem insert_short_append (k r : List ℕ) (c value : Node) (hr : k ++ r ≠ []) :
    Trie.insert (.short k c) (k ++ r) value =
      (Trie.insert c r value).bind fun (d, nn) => some (d, if d then .short k nn else .short k c) := by
  obtain ⟨y, ys, hy⟩ := List.exists_cons_of_ne_nil hr
  have hm : prefixLen (k ++ r) k = k.length := prefixLen_eq_length_iff.mpr (List.prefix_append _ _)
  rw [hy, Trie.insert, ← hy, if_pos hm, hm, List.drop_left]
  rcases Trie.insert c r value with _ | ⟨_ | _, nn⟩ <;> rfl

theorem insert_full_cons (cs : Fin 17 → Node) {i : ℕ} (hi : i < 17) (rest : List ℕ) (value : Node) :
    Trie.insert (.full cs) (i :: rest) value =
      (Trie.insert (cs ⟨i, hi⟩) rest value).bind fun (d, nn) =>
        some (d, if d then .full (Function.update cs ⟨i, hi⟩ nn) else .full cs) := by
  rw [Trie.insert, dif_pos hi]
  rcases Trie.insert (cs ⟨i, hi⟩) rest value with _ | ⟨_ | _, nn⟩ <;> rfl

theorem insert_short_fork (t s s' : List ℕ) {a b : ℕ} (hab : a ≠ b) (ha : a < 17) (hb : b < 17) (c value : Node) :
    Trie.insert (.short (t ++ a :: s) c) (t ++ b :: s') value =
      some (true, if t.length = 0 then .full (Function.update (Function.update (fun _ => .nil) ⟨a, ha⟩
          (insertNil s c)) ⟨b, hb⟩ (insertNil s' value))
        else .short t (.full (Function.update (Function.update (fun _ => .nil) ⟨a, ha⟩
          (insertNil s c)) ⟨b, hb⟩ (insertNil s' value)))) := by
  obtain ⟨y, ys, hy⟩ := List.exists_cons_of_ne_nil (show t ++ b :: s' ≠ [] by simp)
  rw [hy, Trie.insert, ← hy, prefixLen_fork t s s' (Ne.symm hab)]
  simp [ha, hb]
  split_ifs <;> rfl

theorem insert_nil_wrote {p key : List ℕ} (hk : Terminated (p ++ key)) (v : List UInt8) :
    Wrote p .nil key (some v) true (insertNil key (.value v)) := by
  refine Wrote.changed (Good.insertNil (.value hk) fun hkey => ⟨?_, trivial⟩) (by simp [tryGet]) fun q hq => ?_
  · obtain ⟨y, ys, rfl⟩ := List.exists_cons_of_ne_nil hkey
    exact hk.onKey.nibbles_of_cons
  · rw [tryGet_insertNil, tryGet_short]
    by_cases hq' : q = key
    · subst hq'
      simp [tryGet]
    · have hpre : ¬ key <+: q := fun h => hq' (Terminated.eq_of_append_prefix hk hq h).symm
      simp [hq', hpre, tryGet]

theorem insert_value_wrote {p : List ℕ} (hp : Terminated p) (w v : List UInt8) :
    Wrote p (.value w) [] (some v) (decide (w ≠ v)) (.value v) := by
  refine ⟨.value hp, by simp [tryGet], fun h => ?_, fun q hq => ?_⟩
  · rw [decide_eq_false_iff_not, not_not] at h
    rw [h]
  · have hq' : q = [] := (Terminated.eq_of_append_prefix (by simpa using hp) hq List.nil_prefix).symm
    subst hq'
    simp [tryGet]

/-- `insert` keeps a `fullNode` a `fullNode` and a `valueNode` a `valueNode`. -/
theorem shortChild_of_insert {c c' : Node} {key : List ℕ} {v : List UInt8} {d : Bool} (hc : ShortChild c)
    (h : Trie.insert c key (.value v) = some (d, c')) : ShortChild c' := by
  cases c with
  | full cs =>
      cases key with
      | nil =>
          cases h
          trivial
      | cons i rest =>
          by_cases hi : i < 17
          · rw [insert_full_cons _ hi] at h
            obtain ⟨⟨d', nn⟩, -, h⟩ := Option.bind_eq_some_iff.mp h
            cases d' <;> cases h <;> trivial
          · simp [Trie.insert, hi] at h
  | value w =>
      cases key with
      | nil =>
          cases h
          trivial
      | cons => cases h
  | nil | short => exact absurd hc id

/-- `insert` where the key leaves a `shortNode`'s key: a `fullNode` takes
both, under a `shortNode` for the common prefix if there is one. -/
theorem Good.insert_fork {p t s s' : List ℕ} {a b : ℕ} {c : Node} (hab : a ≠ b) (hp : Nibbles p)
    (hc : ShortChild c) (hgood : Good (p ++ (t ++ a :: s)) c) (hk : Terminated (p ++ (t ++ b :: s')))
    (v : List UInt8) :
    ∃ n', Trie.insert (.short (t ++ a :: s) c) (t ++ b :: s') (.value v) = some (true, n') ∧
      Wrote p (.short (t ++ a :: s) c) (t ++ b :: s') (some v) true n' := by
  have hon : OnKey (p ++ t ++ a :: s) := by simpa using hgood.onKey hc
  have ha : a < 17 := hon.lt_seventeen (by simp)
  have hb : b < 17 := hk.onKey.lt_seventeen (by simp)
  have hpt : Nibbles (p ++ t) := hon.nibbles_of_cons
  refine ⟨_, insert_short_fork t s s' hab ha hb c _, ?_⟩
  set B : Fin 17 → Node := Function.update (Function.update (fun _ => .nil) ⟨a, ha⟩ (Trie.insertNil s c))
    ⟨b, hb⟩ (Trie.insertNil s' (.value v)) with hB
  have hfull : Good (p ++ t) (.full B) := by
    refine .full hpt fun j => ?_
    rw [hB, Function.update_apply, Function.update_apply]
    split_ifs with hjb hja
    · subst hjb
      refine Good.insertNil (by simpa using Good.value (v := v) hk) fun hs' => ⟨?_, trivial⟩
      obtain ⟨z, zs, rfl⟩ := List.exists_cons_of_ne_nil hs'
      exact OnKey.nibbles_of_cons (x := z) (r := zs) (by simpa using hk.onKey)
    · subst hja
      refine Good.insertNil (by simpa using hgood) fun hs => ⟨?_, hc⟩
      obtain ⟨z, zs, rfl⟩ := List.exists_cons_of_ne_nil hs
      exact OnKey.nibbles_of_cons (x := z) (r := zs) (by simpa using hon)
    · exact .nil
  -- with an empty common prefix the branch stands alone, which reads the same
  have hread : ∀ q, tryGet (if t.length = 0 then .full B else .short t (.full B)) q = tryGet (.short t (.full B)) q := by
    intro q
    split_ifs with ht
    · rw [List.length_eq_zero_iff.mp ht, tryGet_short_nil]
    · rfl
  refine Wrote.changed ?_ ?_ fun q hq => ?_
  · split_ifs with ht
    · simpa [List.length_eq_zero_iff.mp ht] using hfull
    · exact .short hp trivial hfull
  · rw [tryGet_short_append_cons]
    simp [hab.symm]
  · rw [hread, tryGet_short t]
    by_cases htq : t <+: q
    · obtain ⟨u, rfl⟩ := htq
      obtain ⟨j, r, rfl⟩ := List.exists_cons_of_ne_nil (Terminated.ne_nil_of_nibbles hpt (by simpa using hq))
      have hj : j < 17 := hq.onKey.lt_seventeen (by simp)
      rw [if_pos (List.prefix_append _ _), List.drop_left, tryGet_full_cons _ hj, tryGet_short_append_cons, hB,
        Function.update_apply, Function.update_apply]
      by_cases hjb : j = b
      · subst hjb
        rw [if_pos rfl, tryGet_insertNil, tryGet_short, if_neg (Ne.symm hab)]
        by_cases hr : r = s'
        · subst hr
          simp [tryGet]
        · have hpre : ¬ s' <+: r := fun h =>
            hr (Terminated.eq_of_append_prefix (p := p ++ t ++ [j]) (by simpa using hk) (by simpa using hq) h).symm
          simp [hr, hpre]
      · have hne : (⟨j, hj⟩ : Fin 17) ≠ ⟨b, hb⟩ := fun he => hjb (Fin.mk.inj_iff.mp he)
        simp only [hne, if_false, List.append_cancel_left_eq, List.cons.injEq, hjb, false_and]
        by_cases hja : j = a
        · subst hja
          simp [tryGet_insertNil]
        · have hne' : (⟨j, hj⟩ : Fin 17) ≠ ⟨a, ha⟩ := fun he => hja (Fin.mk.inj_iff.mp he)
          simp [hne', hja, tryGet]
    · have hold : ¬ t ++ a :: s <+: q := fun h => htq ((List.prefix_append _ _).trans h)
      have hne : q ≠ t ++ b :: s' := fun he => htq (he ▸ List.prefix_append _ _)
      rw [if_neg htq, tryGet_short, if_neg hold, if_neg hne]

/-- `insert` on a good node writes `v` at `key`, and reports a change exactly
when the node did not hold `v` there already. -/
theorem Good.insert {p : List ℕ} {n : Node} (hn : Good p n) {key : List ℕ} (hk : Terminated (p ++ key))
    (v : List UInt8) : ∃ d n', Trie.insert n key (.value v) = some (d, n') ∧ Wrote p n key (some v) d n' := by
  induction hn generalizing key with
  | nil => exact ⟨true, _, insert_nil key _, insert_nil_wrote hk v⟩
  | @value p w hp =>
      obtain rfl : key = [] := (Terminated.eq_of_append_prefix (by simpa using hp) hk List.nil_prefix).symm
      exact ⟨_, _, rfl, insert_value_wrote hp w v⟩
  | @short p k c hp hc hgood ih =>
      by_cases hkey : k <+: key
      · -- the key runs through the `shortNode`: write below it
        obtain ⟨r, rfl⟩ := hkey
        obtain ⟨d, c', hins, hw⟩ := @ih r (by simpa using hk)
        refine ⟨d, _, by rw [insert_short_append _ _ _ _ (hk.ne_nil_of_nibbles hp), hins]; rfl,
          Wrote.lift (Node.short k) hw (tryGet_short_append_self k r c) (.short hp hc hgood)
            (fun _ => .short hp (shortChild_of_insert hc hins) hw.good) Overwrites.short⟩
      · -- the key leaves it: branch out
        have hshort : ¬ key <+: k := fun h => by
          obtain ⟨z, rfl⟩ := h
          obtain ⟨y, ys, rfl⟩ := List.exists_cons_of_ne_nil
            (show z ≠ [] from fun hz => hkey (by rw [hz, List.append_nil]))
          exact hk.not_nibbles (by simpa using OnKey.nibbles_of_cons (by simpa using hgood.onKey hc))
        obtain ⟨t, a, s, b, s', rfl, rfl, hab⟩ := exists_fork hkey hshort
        obtain ⟨n', hins, hw⟩ := Good.insert_fork hab hp hc hgood hk v
        exact ⟨true, n', hins, hw⟩
  | @full p cs hp hcs ih =>
      obtain ⟨i, rest, rfl⟩ := List.exists_cons_of_ne_nil (hk.ne_nil_of_nibbles hp)
      have hi : i < 17 := hk.onKey.lt_seventeen (by simp)
      obtain ⟨d, c', hins, hw⟩ := @ih ⟨i, hi⟩ rest (by simpa using hk)
      refine ⟨d, _, by rw [insert_full_cons _ hi, hins]; rfl,
        Wrote.lift (fun c' => .full (Function.update cs ⟨i, hi⟩ c')) hw (tryGet_full_cons _ hi _) (.full hp hcs)
          (fun _ => Good.update hp hcs hw.good) (Overwrites.full hi hp)⟩

/-! ## Delete -/

/-- The node `delete` leaves for a `shortNode` with key `k` whose child is now
`child`: a `shortNode` child is merged into it. -/
def joinShort (k : List ℕ) : Node → Node
  | .short ck cv => .short (k ++ ck) cv
  | child => .short k child

/-- What `delete` leaves of a `fullNode` with children `cs`, one of them just
emptied: the one child left under a one-nibble `shortNode`, or the `fullNode`
while two or more are left. -/
def collapse (cs : Fin 17 → Node) : Node :=
  let pos := reducePos cs (List.finRange 17) (-1)
  if hpos : 0 ≤ pos ∧ pos < 17 then
    let p : Fin 17 := ⟨pos.toNat, (Int.toNat_lt hpos.1).mpr hpos.2⟩
    if p.val ≠ 16 then joinShort [p.val] (cs p) else .short [p.val] (cs p)
  else .full cs

theorem Node.isNil_iff {n : Node} : n.isNil = true ↔ n = .nil := by
  cases n <;> simp [Node.isNil]

theorem tryGet_joinShort (k : List ℕ) (c : Node) (q : List ℕ) : tryGet (joinShort k c) q = tryGet (.short k c) q := by
  cases c with
  | short ck cv => exact tryGet_short_append k ck cv q
  | nil | value | full => rfl

theorem joinShort_of_not_short {k : List ℕ} {c : Node} (h : ∀ ck cv, c = .short ck cv → False) :
    joinShort k c = .short k c := by
  cases c with
  | short ck cv => exact absurd rfl (h ck cv)
  | nil | value | full => rfl

theorem joinShort_isNil (k : List ℕ) (c : Node) : (joinShort k c).isNil = false := by
  cases c <;> rfl

theorem Good.joinShort {p k : List ℕ} {c : Node} (hp : Nibbles p) (hc : Good (p ++ k) c) (hn : c.isNil = false) :
    Good p (joinShort k c) := by
  cases hc with
  | nil => exact absurd hn (by decide)
  | value ht => exact .short hp trivial (.value ht)
  | full hpk hcs => exact .short hp trivial (.full hpk hcs)
  | short _ hcv hg => exact .short hp hcv (by simpa using hg)

/-- The scan of `delete` over the children, once it has seen a child. -/
theorem reducePos_of_nonneg (cs : Fin 17 → Node) :
    ∀ (is : List (Fin 17)) (pos : ℤ), 0 ≤ pos → 0 ≤ reducePos cs is pos →
      reducePos cs is pos = pos ∧ ∀ j ∈ is, (cs j).isNil = true
  | [], _, _, _ => ⟨rfl, by simp⟩
  | i :: is, pos, hpos, h => by
      by_cases hi : (cs i).isNil = true
      · simp only [reducePos, hi, if_true] at h ⊢
        obtain ⟨heq, hall⟩ := reducePos_of_nonneg cs is pos hpos h
        exact ⟨heq, by simpa [hi] using hall⟩
      · have hne : pos ≠ -1 := by omega
        simp [reducePos, hi, hne] at h

/-- The scan of `delete` over the children ends at a position only when the
child there is the one child left. -/
theorem reducePos_single (cs : Fin 17 → Node) :
    ∀ (is : List (Fin 17)), 0 ≤ reducePos cs is (-1) →
      ∃ q ∈ is, reducePos cs is (-1) = q.val ∧ (cs q).isNil = false ∧ ∀ j ∈ is, j ≠ q → (cs j).isNil = true
  | [], h => by simp [reducePos] at h
  | i :: is, h => by
      by_cases hi : (cs i).isNil = true
      · simp only [reducePos, hi, if_true] at h ⊢
        obtain ⟨q, hq, heq, hnil, hall⟩ := reducePos_single cs is h
        refine ⟨q, List.mem_cons_of_mem _ hq, heq, hnil, fun j hj hjq => ?_⟩
        rcases List.mem_cons.mp hj with rfl | hj
        · exact hi
        · exact hall j hj hjq
      · simp only [reducePos, hi, Bool.false_eq_true, if_false, if_true] at h ⊢
        obtain ⟨heq, hall⟩ := reducePos_of_nonneg cs is i (by omega) h
        refine ⟨i, List.mem_cons_self, heq, by simpa using hi, fun j hj hji => ?_⟩
        rcases List.mem_cons.mp hj with rfl | hj
        · exact absurd rfl hji
        · exact hall j hj

/-- A `fullNode` with one child reads as that child under its nibble. -/
theorem tryGet_full_of_single {cs : Fin 17 → Node} {q : Fin 17} (h : ∀ j, j ≠ q → (cs j).isNil = true)
    {j : ℕ} (hj : j < 17) (r : List ℕ) : tryGet (.full cs) (j :: r) = tryGet (.short [q.val] (cs q)) (j :: r) := by
  rw [tryGet_full_cons _ hj, tryGet_short]
  by_cases hjq : j = q.val
  · subst hjq
    simp
  · have hpre : ¬ [q.val] <+: j :: r := by simp [Ne.symm hjq]
    rw [if_neg hpre, Node.isNil_iff.mp (h ⟨j, hj⟩ fun he => hjq (by rw [← he]))]
    rfl

theorem collapse_spec (cs : Fin 17 → Node) :
    (∃ q : Fin 17, (cs q).isNil = false ∧ (∀ j, j ≠ q → (cs j).isNil = true) ∧
      (collapse cs = joinShort [q.val] (cs q) ∨ q.val = 16 ∧ collapse cs = .short [q.val] (cs q))) ∨
    collapse cs = .full cs := by
  unfold collapse
  dsimp only
  by_cases hpos : 0 ≤ reducePos cs (List.finRange 17) (-1) ∧ reducePos cs (List.finRange 17) (-1) < 17
  · obtain ⟨q, -, heq, hnil, hall⟩ := reducePos_single cs _ hpos.1
    have hv : (reducePos cs (List.finRange 17) (-1)).toNat = q.val := by simp [heq]
    have hq : (⟨(reducePos cs (List.finRange 17) (-1)).toNat, (Int.toNat_lt hpos.1).mpr hpos.2⟩ : Fin 17) = q :=
      Fin.ext hv
    refine Or.inl ⟨q, hnil, fun j hj => hall j (List.mem_finRange j) hj, ?_⟩
    rw [dif_pos hpos]
    split_ifs with h16
    · exact Or.inl (by rw [hq, hv])
    · exact Or.inr ⟨hv ▸ not_not.mp h16, by rw [hq, hv]⟩
  · exact Or.inr (dif_neg hpos)

theorem tryGet_collapse (cs : Fin 17 → Node) {j : ℕ} (hj : j < 17) (r : List ℕ) :
    tryGet (collapse cs) (j :: r) = tryGet (.full cs) (j :: r) := by
  rcases collapse_spec cs with ⟨q, -, hall, hc | ⟨-, hc⟩⟩ | hc
  · rw [hc, tryGet_joinShort, tryGet_full_of_single hall hj]
  · rw [hc, tryGet_full_of_single hall hj]
  · rw [hc]

theorem collapse_isNil (cs : Fin 17 → Node) : (collapse cs).isNil = false := by
  rcases collapse_spec cs with ⟨q, -, -, hc | ⟨-, hc⟩⟩ | hc <;> rw [hc]
  · exact joinShort_isNil _ _
  · rfl
  · rfl

theorem Good.collapse {p : List ℕ} {cs : Fin 17 → Node} (h : Good p (.full cs)) : Good p (collapse cs) := by
  cases h with
  | full hp hcs =>
      rcases collapse_spec cs with ⟨q, hnil, -, hc | ⟨h16, hc⟩⟩ | hc
      · rw [hc]
        exact Good.joinShort hp (hcs q) hnil
      · -- the child at the terminator is a value
        rw [hc]
        have hend : Terminated (p ++ [q.val]) := ⟨p, hp, by rw [h16]⟩
        rcases (hcs q).of_terminated hend with hq | ⟨w, hq⟩
        · rw [hq] at hnil
          exact absurd hnil (by decide)
        · exact .short hp (by rw [hq]; trivial) (hcs q)
      · rw [hc]
        exact .full hp hcs

theorem delete_short_of_not_prefix {k key : List ℕ} (c : Node) (h : ¬ k <+: key) :
    Trie.delete (.short k c) key = some (false, .short k c) := by
  have hm : prefixLen key k < k.length :=
    lt_of_le_of_ne (prefixLen_le_right key k) fun he => h (prefixLen_eq_length_iff.mp he)
  rw [Trie.delete]
  exact if_pos hm

theorem delete_short_self (k : List ℕ) (c : Node) : Trie.delete (.short k c) k = some (true, .nil) := by
  have hm : prefixLen k k = k.length := prefixLen_eq_length_iff.mpr (List.prefix_refl k)
  rw [Trie.delete]
  simp [hm]

theorem delete_short_append (k r : List ℕ) (c : Node) (hr : r ≠ []) :
    Trie.delete (.short k c) (k ++ r) =
      (Trie.delete c r).bind fun (d, nn) => some (d, if d then joinShort k nn else .short k c) := by
  have hm : prefixLen (k ++ r) k = k.length := prefixLen_eq_length_iff.mpr (List.prefix_append _ _)
  have hlen : k.length ≠ (k ++ r).length := by
    rw [List.length_append]
    have := List.length_pos_iff.mpr hr
    omega
  rw [Trie.delete]
  simp only [hm, lt_irrefl, if_false, if_neg hlen, List.drop_left]
  rcases Trie.delete c r with _ | ⟨_ | _, nn⟩
  · rfl
  · rfl
  · cases nn <;> rfl

theorem delete_full_cons (cs : Fin 17 → Node) {i : ℕ} (hi : i < 17) (rest : List ℕ) :
    Trie.delete (.full cs) (i :: rest) =
      (Trie.delete (cs ⟨i, hi⟩) rest).bind fun (d, nn) =>
        some (d, if d then (if nn.isNil then collapse (Function.update cs ⟨i, hi⟩ nn)
          else .full (Function.update cs ⟨i, hi⟩ nn)) else .full cs) := by
  rw [Trie.delete, dif_pos hi]
  rcases Trie.delete (cs ⟨i, hi⟩) rest with _ | ⟨_ | _, nn⟩
  · rfl
  · rfl
  · cases hnn : nn.isNil
    · simp [hnn]
    · simp only [hnn, Bool.not_true, Bool.false_eq_true, if_false, if_true, Option.bind_some, collapse]
      split_ifs
      · split
        next _ _ hc => rw [hc]; rfl
        next hc => rw [joinShort_of_not_short hc]
      · rfl
      · rfl

/-- `delete` never leaves a `fullNode` empty. -/
theorem delete_full_isNil {cs : Fin 17 → Node} {key : List ℕ} {d : Bool} {n' : Node}
    (h : Trie.delete (.full cs) key = some (d, n')) : n'.isNil = false := by
  cases key with
  | nil => simp [Trie.delete] at h
  | cons i rest =>
      by_cases hi : i < 17
      · rw [delete_full_cons _ hi] at h
        obtain ⟨⟨d', nn⟩, -, h⟩ := Option.bind_eq_some_iff.mp h
        simp only [Option.some.injEq, Prod.mk.injEq] at h
        obtain ⟨-, rfl⟩ := h
        split_ifs
        · exact collapse_isNil _
        · rfl
        · rfl
      · simp [Trie.delete, hi] at h

theorem delete_value_wrote {p : List ℕ} (hp : Terminated p) (w : List UInt8) :
    Wrote p (.value w) [] none true .nil := by
  refine Wrote.changed .nil (by simp [tryGet]) fun q hq => ?_
  obtain rfl : q = [] := (Terminated.eq_of_append_prefix (by simpa using hp) hq List.nil_prefix).symm
  simp [tryGet]

theorem delete_short_self_wrote {p k : List ℕ} (hk : Terminated (p ++ k)) (w : List UInt8) :
    Wrote p (.short k (.value w)) k none true .nil := by
  refine Wrote.changed .nil ?_ fun q hq => ?_
  · rw [tryGet_short, if_pos (List.prefix_refl k)]
    simp [tryGet]
  · by_cases hq' : q = k
    · subst hq'
      simp [tryGet]
    · have hpre : ¬ k <+: q := fun h => hq' (Terminated.eq_of_append_prefix hk hq h).symm
      rw [tryGet_short, if_neg hpre]
      simp [hq', tryGet]

/-- `delete` on a good node erases `key`, and reports a change exactly when
the node held a value there. -/
theorem Good.delete {p : List ℕ} {n : Node} (hn : Good p n) {key : List ℕ} (hk : Terminated (p ++ key)) :
    ∃ d n', Trie.delete n key = some (d, n') ∧ Wrote p n key none d n' := by
  induction hn generalizing key with
  | nil => exact ⟨false, .nil, by cases key <;> rfl, Wrote.unchanged .nil (by simp [tryGet])⟩
  | @value p w hp =>
      obtain rfl : key = [] := (Terminated.eq_of_append_prefix (by simpa using hp) hk List.nil_prefix).symm
      exact ⟨true, .nil, rfl, delete_value_wrote hp w⟩
  | @short p k c hp hc hgood ih =>
      by_cases hkey : k <+: key
      · obtain ⟨r, rfl⟩ := hkey
        by_cases hr : r = []
        · -- the whole key: the `shortNode` goes, and the value under it
          subst hr
          rw [List.append_nil] at hk ⊢
          obtain ⟨w, rfl⟩ : ∃ w, c = .value w := by
            rcases hgood.of_terminated hk with rfl | h
            · exact absurd hc id
            · exact h
          exact ⟨true, .nil, delete_short_self k _, delete_short_self_wrote hk w⟩
        · -- the key runs on below: `c` is a `fullNode`, which `delete` never empties
          obtain ⟨d, c', hdel, hw⟩ := @ih r (by simpa using hk)
          have hnil : c'.isNil = false := by
            cases c with
            | full cs => exact delete_full_isNil hdel
            | value w =>
                cases hgood with
                | value ht =>
                    exact absurd (Terminated.eq_of_append_prefix (by simpa using ht) (by simpa using hk)
                      List.nil_prefix).symm hr
            | nil | short => exact absurd hc id
          refine ⟨d, _, by rw [delete_short_append _ _ _ hr, hdel]; rfl,
            Wrote.lift (Trie.joinShort k) hw (tryGet_short_append_self k r c) (.short hp hc hgood)
              (fun _ => Good.joinShort hp hw.good hnil) fun h q hq => ?_⟩
          rw [tryGet_joinShort]
          exact Overwrites.short h q hq
      · exact ⟨false, _, delete_short_of_not_prefix c hkey,
          Wrote.unchanged (.short hp hc hgood) (by rw [tryGet_short, if_neg hkey])⟩
  | @full p cs hp hcs ih =>
      obtain ⟨i, rest, rfl⟩ := List.exists_cons_of_ne_nil (hk.ne_nil_of_nibbles hp)
      have hi : i < 17 := hk.onKey.lt_seventeen (by simp)
      obtain ⟨d, c', hdel, hw⟩ := @ih ⟨i, hi⟩ rest (by simpa using hk)
      have hgood : Good p (.full (Function.update cs ⟨i, hi⟩ c')) := Good.update hp hcs hw.good
      refine ⟨d, _, by rw [delete_full_cons _ hi, hdel]; rfl,
        Wrote.lift (fun c' => if c'.isNil then Trie.collapse (Function.update cs ⟨i, hi⟩ c')
          else .full (Function.update cs ⟨i, hi⟩ c')) hw (tryGet_full_cons _ hi _) (.full hp hcs)
          (fun _ => ?_) fun h q hq => ?_⟩
      · split_ifs
        · exact hgood.collapse
        · exact hgood
      · -- a collapsed node reads as the `fullNode` it replaces
        have hfull := Overwrites.full hi hp h q hq
        by_cases hn : c'.isNil = true
        · obtain ⟨j, r, rfl⟩ := List.exists_cons_of_ne_nil (hq.ne_nil_of_nibbles hp)
          simp only [hn, if_true]
          rw [tryGet_collapse _ (hq.onKey.lt_seventeen (by simp))]
          exact hfull
        · simp only [hn, Bool.false_eq_true, if_false]
          exact hfull

/-! ## The trie as a map of byte keys -/

open PrefixMap

/-- A write on the map of byte keys: an update with a value puts it, and an
update with an empty value or a delete erases the key. -/
def Op.write : Op → Map UInt8 (List UInt8) → Map UInt8 (List UInt8)
  | .update key value, m => if value.length ≠ 0 then put key value m else erase key m
  | .delete key, m => erase key m

/-- The map a sequence of writes leaves, from the empty one. -/
def writes (ops : List Op) : Map UInt8 (List UInt8) := ops.foldl (fun m op => op.write m) empty

/-- The trie at `root` holds the map `m`. -/
structure Holds (root : Node) (m : Map UInt8 (List UInt8)) : Prop where
  good : Good [] root
  get : ∀ key, get root key = some (m key)

theorem holds_nil : Holds .nil empty := ⟨.nil, fun _ => rfl⟩

theorem Holds.wrote {root n' : Node} {m : Map UInt8 (List UInt8)} (h : Holds root m) {key : List UInt8}
    {x : Option (List UInt8)} {d : Bool} (hw : Wrote [] root (keybytesToHex key) x d n') :
    Holds n' (fun q => if q = key then x else m q) := by
  refine ⟨hw.good, fun q => ?_⟩
  rw [Trie.get, hw.holds _ (by simpa using terminated_keybytesToHex q)]
  by_cases hq : q = key
  · simp [hq]
  · have hhex : keybytesToHex q ≠ keybytesToHex key := fun he => hq (keybytesToHex_inj he)
    rw [if_neg hhex, if_neg hq]
    exact h.get q

theorem Holds.apply {root : Node} {m : Map UInt8 (List UInt8)} (h : Holds root m) (op : Op) :
    ∃ root', op.apply root = some root' ∧ Holds root' (op.write m) := by
  have hk : ∀ key, Terminated ([] ++ keybytesToHex key) := fun key => by
    simpa using terminated_keybytesToHex key
  cases op with
  | update key value =>
      by_cases hv : value.length ≠ 0
      · obtain ⟨d, n', hins, hw⟩ := h.good.insert (hk key) value
        exact ⟨n', by simp [Op.apply, tryUpdate, hv, hins], by rw [Op.write, if_pos hv]; exact h.wrote hw⟩
      · obtain ⟨d, n', hdel, hw⟩ := h.good.delete (hk key)
        exact ⟨n', by simp [Op.apply, tryUpdate, hv, hdel], by rw [Op.write, if_neg hv]; exact h.wrote hw⟩
  | delete key =>
      obtain ⟨d, n', hdel, hw⟩ := h.good.delete (hk key)
      exact ⟨n', by simp [Op.apply, tryDelete, hdel], h.wrote hw⟩

theorem Holds.run {root : Node} {m : Map UInt8 (List UInt8)} (h : Holds root m) :
    ∀ ops : List Op, ∃ root', run ops root = some root' ∧ Holds root' (ops.foldl (fun m op => op.write m) m)
  | [] => ⟨root, rfl, h⟩
  | op :: ops => by
      obtain ⟨root₁, h₁, hh₁⟩ := h.apply op
      obtain ⟨root₂, h₂, hh₂⟩ := hh₁.run ops
      exact ⟨root₂, by simp [Trie.run, h₁, h₂], hh₂⟩

/-- Every sequence of `TryUpdate` and `TryDelete` calls on the empty trie
succeeds, and `TryGet` then finds under each key what the last write to it
left: its value, or nothing after an empty value or a delete. -/
theorem run_holds_writes (ops : List Op) :
    ∃ root, run ops .nil = some root ∧ ∀ key, get root key = some (writes ops key) := by
  obtain ⟨root, hrun, hh⟩ := holds_nil.run ops
  exact ⟨root, hrun, hh.get⟩

/-- On every trie built by `TryUpdate` and `TryDelete`, the `dirty` flag of
`insert` and `delete` is false exactly when the key already held the value,
or nothing, and then the node handed back is the root itself. -/
theorem dirty_iff_changed {ops : List Op} {root : Node} (hr : run ops .nil = some root) (key v : List UInt8) :
    (∃ d n', Trie.insert root (keybytesToHex key) (.value v) = some (d, n') ∧
      (d = false ↔ get root key = some (some v)) ∧ (d = false → n' = root)) ∧
    ∃ d n', Trie.delete root (keybytesToHex key) = some (d, n') ∧
      (d = false ↔ get root key = some none) ∧ (d = false → n' = root) := by
  obtain ⟨root', hrun, hh⟩ := holds_nil.run ops
  obtain rfl : root' = root := Option.some_inj.mp (hrun.symm.trans hr)
  have hk : Terminated ([] ++ keybytesToHex key) := by simpa using terminated_keybytesToHex key
  obtain ⟨d, n', hins, hw⟩ := hh.good.insert hk v
  obtain ⟨d', n'', hdel, hw'⟩ := hh.good.delete hk
  exact ⟨⟨d, n', hins, hw.dirty, hw.same⟩, ⟨d', n'', hdel, hw'.dirty, hw'.same⟩⟩

/-- On the trie of 0x12 ↦ [1] and 0x13 ↦ [2]: writing [1] at 0x12 again and
deleting the absent 0x14 hand back the root unchanged, while writing [3] at 0x13
and deleting 0x13 report a change. -/
theorem dirty_iff_changed_two :
    ∃ root, run [.update [0x12] [1], .update [0x13] [2]] .nil = some root ∧
      (∃ n', Trie.insert root (keybytesToHex [0x12]) (.value [1]) = some (false, n') ∧ n' = root) ∧
      (∃ n', Trie.insert root (keybytesToHex [0x13]) (.value [3]) = some (true, n')) ∧
      (∃ n', Trie.delete root (keybytesToHex [0x14]) = some (false, n') ∧ n' = root) ∧
      ∃ n', Trie.delete root (keybytesToHex [0x13]) = some (true, n') := by
  obtain ⟨root, hr⟩ : ∃ root, run [.update [0x12] [1], .update [0x13] [2]] .nil = some root := ⟨_, rfl⟩
  have hget : ∀ key, get root key = (run [.update [0x12] [1], .update [0x13] [2]] .nil).bind (get · key) := by
    intro key
    rw [hr]
    rfl
  have h12 : get root [0x12] = some (some [1]) := by rw [hget]; rfl
  have h13 : get root [0x13] = some (some [2]) := by rw [hget]; rfl
  have h14 : get root [0x14] = some none := by rw [hget]; rfl
  obtain ⟨⟨d₁, n₁, hi₁, hd₁, hs₁⟩, -⟩ := dirty_iff_changed hr [0x12] [1]
  obtain ⟨⟨d₂, n₂, hi₂, hd₂, -⟩, d₃, n₃, hx₃, hd₃, -⟩ := dirty_iff_changed hr [0x13] [3]
  obtain ⟨-, d₄, n₄, hx₄, hd₄, hs₄⟩ := dirty_iff_changed hr [0x14] []
  -- a flag is false exactly when the key already held what is written
  obtain rfl : d₁ = false := hd₁.mpr h12
  obtain rfl : d₂ = true := by
    rw [← Bool.not_eq_false, hd₂, h13]
    decide
  obtain rfl : d₃ = true := by
    rw [← Bool.not_eq_false, hd₃, h13]
    decide
  obtain rfl : d₄ = false := hd₄.mpr h14
  exact ⟨root, hr, ⟨n₁, hi₁, hs₁ rfl⟩, ⟨n₂, hi₂⟩, ⟨n₄, hx₄, hs₄ rfl⟩, n₃, hx₃⟩

end GoQuai.Trie
