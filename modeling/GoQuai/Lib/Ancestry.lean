import Mathlib.Data.List.Basic

/-! # Ancestor walks in a graded parent-pointer forest

A forest is a partial parent map together with a height that drops by one at
every parent step. Walks are fuelled by the height, so they are structural and
evaluate. The lemmas turn them into statements about the ancestor at a height,
the nearest ancestor-or-self carrying a mark, and the segment of the ancestor
path that starts at that nearest mark; the segments of successive marks
partition the path.
-/

namespace GoQuai.Ancestry

variable {α : Type*}

/-- Walk `n` steps up `parent`, stopping early at a node without a parent. -/
def climb (parent : α → Option α) : ℕ → α → α
  | 0, x => x
  | n + 1, x =>
      match parent x with
      | some p => climb parent n p
      | none => x

/-- A parent map graded by height: a parent sits exactly one level lower, and
only nodes at height zero lack a parent. -/
structure Graded (parent : α → Option α) (height : α → ℕ) : Prop where
  height_parent : ∀ {x p}, parent x = some p → height p + 1 = height x
  exists_parent : ∀ {x}, 0 < height x → ∃ p, parent x = some p

/-- The ancestor-or-self of `x` at height `k` (for `k ≤ height x`). -/
def ancestorAt (parent : α → Option α) (height : α → ℕ) (x : α) (k : ℕ) : α :=
  climb parent (height x - k) x

/-- The nearest ancestor-or-self within `n` steps that is marked; the walk
ends at the last node it reaches when no mark is found. -/
def nearestWithin (parent : α → Option α) (marked : α → Bool) : ℕ → α → α
  | 0, x => x
  | n + 1, x =>
      if marked x then x
      else
        match parent x with
        | some p => nearestWithin parent marked n p
        | none => x

/-- The nearest marked ancestor-or-self, or the root when there is none. -/
def nearest (parent : α → Option α) (height : α → ℕ) (marked : α → Bool) (x : α) : α :=
  nearestWithin parent marked (height x) x

/-- The ancestor path from the nearest mark (inclusive) down to `x`, in
root-to-leaf order, within `n` steps. -/
def segmentWithin (parent : α → Option α) (marked : α → Bool) : ℕ → α → List α
  | 0, x => [x]
  | n + 1, x =>
      if marked x then [x]
      else
        match parent x with
        | some p => segmentWithin parent marked n p ++ [x]
        | none => [x]

/-- The segment of the ancestor path of `x` that starts at its nearest mark. -/
def segment (parent : α → Option α) (height : α → ℕ) (marked : α → Bool) (x : α) : List α :=
  segmentWithin parent marked (height x) x

/-- The whole ancestor path of `x`, root first. -/
def path (parent : α → Option α) (height : α → ℕ) (x : α) : List α :=
  segment parent height (fun _ => false) x

/-- The segments that end at `x` and at every parent of a marked ancestor, in
root-to-leaf order. -/
def windowsWithin (parent : α → Option α) (height : α → ℕ) (marked : α → Bool) :
    ℕ → α → List (List α)
  | 0, x => [segment parent height marked x]
  | n + 1, x =>
      match parent (nearest parent height marked x) with
      | some q => windowsWithin parent height marked n q ++ [segment parent height marked x]
      | none => [segment parent height marked x]

/-- The ancestor path of `x` below its nearest marked proper ancestor, within
`n` steps: `x` itself is in it whether marked or not. -/
def sinceWithin (parent : α → Option α) (marked : α → Bool) : ℕ → α → List α
  | 0, x => [x]
  | n + 1, x =>
      match parent x with
      | some p => if marked p then [x] else sinceWithin parent marked n p ++ [x]
      | none => [x]

-- Generate the equation lemmas of these definitions once, here, rather than in
-- each of the proofs below that unfold them while they are elaborated in parallel.
section
attribute [local simp] climb ancestorAt nearestWithin segmentWithin sinceWithin
end

/-- The nodes from just below the nearest marked proper ancestor of `x` down
to `x`, root first. -/
def since (parent : α → Option α) (height : α → ℕ) (marked : α → Bool) (x : α) : List α :=
  sinceWithin parent marked (height x) x

/-- The windows of `x`: its own segment preceded by those of earlier marks. -/
def windows (parent : α → Option α) (height : α → ℕ) (marked : α → Bool) (x : α) :
    List (List α) :=
  windowsWithin parent height marked (height x) x

section Walks

variable {parent : α → Option α} {height : α → ℕ}

@[simp] theorem climb_zero (x : α) : climb parent 0 x = x := rfl

theorem climb_succ_of_parent {x p : α} (n : ℕ) (h : parent x = some p) :
    climb parent (n + 1) x = climb parent n p := by
  simp [climb, h]

theorem climb_of_none {x : α} (n : ℕ) (h : parent x = none) : climb parent n x = x := by
  cases n with
  | zero => rfl
  | succ n => simp [climb, h]

theorem climb_add (m n : ℕ) (x : α) :
    climb parent (m + n) x = climb parent n (climb parent m x) := by
  induction m generalizing x with
  | zero => simp
  | succ m ih =>
      cases h : parent x with
      | some p =>
          rw [Nat.add_right_comm, climb_succ_of_parent _ h, climb_succ_of_parent _ h, ih]
      | none =>
          rw [climb_of_none _ h, climb_of_none _ h, climb_of_none _ h]

variable (hg : Graded parent height)
include hg

theorem Graded.height_eq_zero_of_none {x : α} (h : parent x = none) : height x = 0 := by
  by_contra hx
  obtain ⟨p, hp⟩ := hg.exists_parent (Nat.pos_of_ne_zero hx)
  simp [h] at hp

/-- Induction along parents: a property of roots that passes from a parent to
its children holds everywhere. -/
theorem Graded.induction {P : α → Prop} (root : ∀ x, parent x = none → P x)
    (step : ∀ x p, parent x = some p → P p → P x) (x : α) : P x := by
  induction hx : height x generalizing x with
  | zero =>
      cases h : parent x with
      | none => exact root x h
      | some p =>
          have := hg.height_parent h
          omega
  | succ n ih =>
      obtain ⟨p, hp⟩ := hg.exists_parent (by omega : 0 < height x)
      have hpn : height p = n := by
        have := hg.height_parent hp
        omega
      exact step x p hp (ih p hpn)

theorem height_climb (n : ℕ) (x : α) : height (climb parent n x) = height x - n := by
  induction n generalizing x with
  | zero => simp
  | succ n ih =>
      cases h : parent x with
      | some p =>
          rw [climb_succ_of_parent _ h, ih]
          have := hg.height_parent h
          omega
      | none =>
          rw [climb_of_none _ h, hg.height_eq_zero_of_none h, Nat.zero_sub]

theorem height_ancestorAt {x : α} {k : ℕ} (hk : k ≤ height x) :
    height (ancestorAt parent height x k) = k := by
  unfold ancestorAt
  rw [height_climb hg]
  omega

omit hg in
@[simp] theorem ancestorAt_height (x : α) : ancestorAt parent height x (height x) = x := by
  simp [ancestorAt]

theorem ancestorAt_ancestorAt {x : α} {j k : ℕ} (hjk : j ≤ k) (hk : k ≤ height x) :
    ancestorAt parent height (ancestorAt parent height x k) j = ancestorAt parent height x j := by
  have hsplit : height x - j = (height x - k) + (k - j) := by omega
  conv_rhs => rw [ancestorAt, hsplit, climb_add]
  rw [ancestorAt, height_ancestorAt hg hk]
  rfl

theorem ancestorAt_of_parent {x p : α} (h : parent x = some p) {k : ℕ} (hk : k < height x) :
    ancestorAt parent height x k = ancestorAt parent height p k := by
  have hp := hg.height_parent h
  have hsplit : height x - k = (height p - k) + 1 := by omega
  rw [ancestorAt, hsplit, climb_succ_of_parent _ h]
  rfl

/-- Two nodes that share an ancestor at height `j` share every lower one. -/
theorem ancestorAt_eq_of_le {x y : α} {i j : ℕ} (hij : i ≤ j) (hx : j ≤ height x)
    (hy : j ≤ height y) (h : ancestorAt parent height x j = ancestorAt parent height y j) :
    ancestorAt parent height x i = ancestorAt parent height y i := by
  rw [← ancestorAt_ancestorAt hg hij hx, h, ancestorAt_ancestorAt hg hij hy]

end Walks

section Marks

variable {parent : α → Option α} {height : α → ℕ} {m : α → Bool}

variable (hg : Graded parent height)
include hg

omit hg in
theorem nearest_of_marked {x : α} (hm : m x = true) :
    nearest parent height m x = x := by
  unfold nearest
  cases height x with
  | zero => rfl
  | succ n => simp [nearestWithin, hm]

theorem nearest_of_parent {x p : α} (hm : m x = false) (h : parent x = some p) :
    nearest parent height m x = nearest parent height m p := by
  unfold nearest
  rw [← hg.height_parent h]
  simp [nearestWithin, hm, h]

theorem nearest_of_none {x : α} (h : parent x = none) :
    nearest parent height m x = x := by
  simp [nearest, hg.height_eq_zero_of_none h, nearestWithin]

omit hg in
theorem segment_of_marked {x : α} (hm : m x = true) :
    segment parent height m x = [x] := by
  unfold segment
  cases height x with
  | zero => rfl
  | succ n => simp [segmentWithin, hm]

theorem segment_of_parent {x p : α} (hm : m x = false) (h : parent x = some p) :
    segment parent height m x = segment parent height m p ++ [x] := by
  unfold segment
  rw [← hg.height_parent h]
  simp [segmentWithin, hm, h]

theorem segment_of_none {x : α} (h : parent x = none) :
    segment parent height m x = [x] := by
  simp [segment, hg.height_eq_zero_of_none h, segmentWithin]

theorem path_of_parent {x p : α} (h : parent x = some p) :
    path parent height x = path parent height p ++ [x] :=
  segment_of_parent hg rfl h

theorem path_of_none {x : α} (h : parent x = none) : path parent height x = [x] :=
  segment_of_none hg h

/-- The ancestor path splits at the nearest mark: what lies above it is the path
of the mark's parent. -/
theorem path_eq_append_segment (x : α) :
    path parent height x =
      (match parent (nearest parent height m x) with
        | some q => path parent height q
        | none => []) ++ segment parent height m x := by
  induction x using hg.induction with
  | root x h => simp [nearest_of_none hg h, h, path_of_none hg h, segment_of_none hg h]
  | step x p h ih =>
      cases hm : m x with
      | true => simp [nearest_of_marked hm, h, path_of_parent hg h, segment_of_marked hm]
      | false =>
          rw [nearest_of_parent hg hm h, segment_of_parent hg hm h, path_of_parent hg h, ih,
            List.append_assoc]

theorem height_nearest_le (x : α) : height (nearest parent height m x) ≤ height x := by
  induction x using hg.induction with
  | root x h => exact (nearest_of_none hg h).symm ▸ Nat.le_refl _
  | step x p h ih =>
      have hp := hg.height_parent h
      cases hm : m x with
      | true => exact (nearest_of_marked hm).symm ▸ Nat.le_refl _
      | false =>
          rw [nearest_of_parent hg hm h]
          omega

theorem mem_path_self (x : α) : x ∈ path parent height x := by
  induction x using hg.induction with
  | root x h => simp [path_of_none hg h]
  | step x p h ih => simp [path_of_parent hg h]

/-- A property closed under taking parents holds along the whole path. -/
theorem forall_mem_path_of_closed {P : α → Prop} (closed : ∀ y q, parent y = some q → P y → P q)
    {x : α} (hx : P x) : ∀ y ∈ path parent height x, P y := by
  induction x using hg.induction with
  | root x h =>
      intro y hy
      rw [path_of_none hg h, List.mem_singleton] at hy
      rw [hy]
      exact hx
  | step x p h ih =>
      intro y hy
      rw [path_of_parent hg h, List.mem_append, List.mem_singleton] at hy
      rcases hy with hy | rfl
      · exact ih (closed x p h hx) y hy
      · exact hx

/-- The nearest mark only reads the marks along the path. -/
theorem nearest_congr {a b : α → Bool} (x : α)
    (hm : ∀ y ∈ path parent height x, a y = b y) :
    nearest parent height a x = nearest parent height b x := by
  induction x using hg.induction with
  | root x h => rw [nearest_of_none hg h, nearest_of_none hg h]
  | step x p h ih =>
      have hx : a x = b x := hm x (mem_path_self hg x)
      have hrest : ∀ y ∈ path parent height p, a y = b y := fun y hy =>
        hm y (by rw [path_of_parent hg h]; exact List.mem_append_left _ hy)
      cases hmx : a x with
      | true =>
          rw [nearest_of_marked hmx, nearest_of_marked (hx ▸ hmx)]
      | false =>
          rw [nearest_of_parent hg hmx h, nearest_of_parent hg (hx ▸ hmx) h, ih hrest]

theorem flatten_windowsWithin (n : ℕ) (x : α) (hn : height x ≤ n) :
    (windowsWithin parent height m n x).flatten = path parent height x := by
  induction n generalizing x with
  | zero =>
      have hx : height x = 0 := by omega
      obtain ⟨p, hp⟩ | hp : (∃ p, parent x = some p) ∨ parent x = none := by
        cases parent x <;> simp
      · have := hg.height_parent hp
        omega
      · simp [windowsWithin, path_of_none hg hp, segment_of_none hg hp]
  | succ n ih =>
      rw [path_eq_append_segment hg (m := m) x]
      cases hq : parent (nearest parent height m x) with
      | none => simp [windowsWithin, hq]
      | some q =>
          have hlt := hg.height_parent hq
          have hle := height_nearest_le hg (m := m) x
          simp [windowsWithin, hq, ih q (by omega)]

/-- The windows partition the ancestor path: concatenated in order they give
every ancestor exactly once. -/
theorem flatten_windows (x : α) :
    (windows parent height m x).flatten = path parent height x :=
  flatten_windowsWithin hg _ x (Nat.le_refl _)

theorem since_of_none {x : α} (h : parent x = none) : since parent height m x = [x] := by
  simp [since, hg.height_eq_zero_of_none h, sinceWithin]

theorem since_of_marked {x p : α} (h : parent x = some p) (hm : m p = true) :
    since parent height m x = [x] := by
  unfold since
  rw [← hg.height_parent h]
  simp [sinceWithin, h, hm]

theorem since_of_parent {x p : α} (h : parent x = some p) (hm : m p = false) :
    since parent height m x = since parent height m p ++ [x] := by
  unfold since
  rw [← hg.height_parent h]
  simp [sinceWithin, h, hm]

theorem height_le_of_mem_since {x y : α} (hy : y ∈ since parent height m x) :
    height y ≤ height x := by
  induction x using hg.induction with
  | root x h =>
      rw [since_of_none hg h, List.mem_singleton] at hy
      subst hy
      exact Nat.le_refl _
  | step x p h ih =>
      have hp := hg.height_parent h
      cases hm : m p with
      | true =>
          rw [since_of_marked hg h hm, List.mem_singleton] at hy
          subst hy
          exact Nat.le_refl _
      | false =>
          rw [since_of_parent hg h hm, List.mem_append, List.mem_singleton] at hy
          rcases hy with hy | rfl
          · have := ih hy
            omega
          · exact Nat.le_refl _

theorem height_le_of_mem_path {x y : α} (hy : y ∈ path parent height x) : height y ≤ height x :=
  height_le_of_mem_since hg (m := fun _ => false) <| by
    induction x using hg.induction with
    | root x h => rwa [since_of_none hg h, ← path_of_none hg h]
    | step x p h ih =>
        rw [since_of_parent hg h rfl]
        rw [path_of_parent hg h, List.mem_append] at hy
        rcases hy with hy | hy
        · exact List.mem_append_left _ (ih hy)
        · exact List.mem_append_right _ hy

theorem height_lt_of_mem_path_of_parent {x p w : α} (h : parent x = some p)
    (hw : w ∈ path parent height p) : height w < height x := by
  have := height_le_of_mem_path hg hw
  have := hg.height_parent h
  omega

theorem ne_of_mem_path_of_parent {x p w : α} (h : parent x = some p)
    (hw : w ∈ path parent height p) : w ≠ x := fun e =>
  Nat.ne_of_lt (height_lt_of_mem_path_of_parent hg h hw) (congrArg height e)

/-- A window `since` the marks reads only the marks along the path. -/
theorem since_congr {a b : α → Bool} (x : α) (hm : ∀ y ∈ path parent height x, a y = b y) :
    since parent height a x = since parent height b x := by
  induction x using hg.induction with
  | root x h => rw [since_of_none hg h, since_of_none hg h]
  | step x p h ih =>
      have hrest : ∀ y ∈ path parent height p, a y = b y := fun y hy =>
        hm y (by rw [path_of_parent hg h]; exact List.mem_append_left _ hy)
      have hp : a p = b p := hrest p (mem_path_self hg p)
      cases hmp : a p with
      | true => rw [since_of_marked hg h hmp, since_of_marked hg h (hp ▸ hmp)]
      | false => rw [since_of_parent hg h hmp, since_of_parent hg h (hp ▸ hmp), ih hrest]

theorem mem_since_self (x : α) : x ∈ since parent height m x := by
  cases h : parent x with
  | none => simp [since_of_none hg h]
  | some p =>
      cases hm : m p with
      | true => simp [since_of_marked hg h hm]
      | false => simp [since_of_parent hg h hm]

theorem mem_path_of_mem_since {x y : α} (hy : y ∈ since parent height m x) :
    y ∈ path parent height x := by
  induction x using hg.induction with
  | root x h => rwa [since_of_none hg h, ← path_of_none hg h] at hy
  | step x p h ih =>
      rw [path_of_parent hg h]
      cases hm : m p with
      | true =>
          rw [since_of_marked hg h hm, List.mem_singleton] at hy
          subst hy
          exact List.mem_append_right _ (List.mem_singleton_self _)
      | false =>
          rw [since_of_parent hg h hm, List.mem_append] at hy
          rcases hy with hy | hy
          · exact List.mem_append_left _ (ih hy)
          · exact List.mem_append_right _ hy

/-- The path of a node of the path of `x` lies in the path of `x`. -/
theorem mem_path_trans {x w y : α} (hw : w ∈ path parent height x)
    (hy : y ∈ path parent height w) : y ∈ path parent height x :=
  forall_mem_path_of_closed hg (P := fun w => ∀ y ∈ path parent height w, y ∈ path parent height x)
    (fun w q h hw y hy => hw y (by rw [path_of_parent hg h]; exact List.mem_append_left _ hy))
    (fun _ hy => hy) w hw y hy

/-- Below a node `p` of the path, the window of a child of `p` reaches back to
`y` exactly when no node of the path of `p` from `y` on is marked. -/
theorem mem_since_of_parent_iff {p : α} :
    ∀ {x y : α}, parent x = some p → y ∈ path parent height p →
      (y ∈ since parent height m x ↔
        ∀ w ∈ path parent height p, height y ≤ height w → m w = false) := by
  induction p using hg.induction with
  | root p hp =>
      intro x y h hy
      have hyx := ne_of_mem_path_of_parent hg h hy
      rw [path_of_none hg hp, List.mem_singleton] at hy
      subst hy
      rw [path_of_none hg hp]
      cases hm : m y with
      | true => simp [since_of_marked hg h hm, hm, hyx]
      | false => simp [since_of_parent hg h hm, since_of_none hg hp, hm]
  | step p q hq ih =>
      intro x y h hy
      have hqp := hg.height_parent hq
      have hyx := ne_of_mem_path_of_parent hg h hy
      cases hm : m p with
      | true =>
          rw [since_of_marked hg h hm, List.mem_singleton]
          simp only [hyx, false_iff, not_forall]
          exact ⟨p, mem_path_self hg p, height_le_of_mem_path hg hy, by simp [hm]⟩
      | false =>
          rw [since_of_parent hg h hm, List.mem_append, List.mem_singleton]
          rw [path_of_parent hg hq, List.mem_append, List.mem_singleton] at hy
          simp only [hyx, or_false, path_of_parent hg hq, List.mem_append, List.mem_singleton]
          rcases hy with hy | rfl
          · -- `y` lies above `p`: the window of `p` decides, and `p` itself is unmarked
            rw [ih hq hy]
            constructor
            · rintro hall w (hw | rfl) hyw
              · exact hall w hw hyw
              · exact hm
            · intro hall w hw hyw
              exact hall w (Or.inl hw) hyw
          · -- `y` is `p`, which is in its own window, and nothing above it is as high
            simp only [mem_since_self hg, true_iff]
            rintro w (hw | rfl) hyw
            · have := height_le_of_mem_path hg hw
              omega
            · exact hm

end Marks

section Count

variable [DecidableEq α] {parent : α → Option α} {height : α → ℕ} {m : α → Bool}

variable (hg : Graded parent height)
include hg

/-- Along a path, the node `y` lies in the window of exactly one marked node:
the first mark at or below it, when there is one. -/
theorem countP_mem_since {y : α} :
    ∀ x, y ∈ path parent height x →
      (path parent height x).countP (fun w => m w && decide (y ∈ since parent height m w)) =
        if ∃ w ∈ path parent height x, m w = true ∧ height y ≤ height w then 1 else 0 := by
  intro x
  induction x using hg.induction with
  | root x h =>
      intro hy
      rw [path_of_none hg h, List.mem_singleton] at hy
      subst hy
      cases hm : m y <;> simp [path_of_none hg h, since_of_none hg h, hm]
  | step x p h ih =>
      intro hy
      have hpx := hg.height_parent h
      rw [path_of_parent hg h, List.mem_append, List.mem_singleton] at hy
      rw [path_of_parent hg h, List.countP_append]
      rcases hy with hy | rfl
      · -- `y` is above `x`: `x` counts when it is marked and nothing from `y` on was
        have hyx := height_le_of_mem_path hg hy
        have hsince := mem_since_of_parent_iff hg (m := m) h hy
        rw [ih hy]
        by_cases hG : ∃ w ∈ path parent height p, m w = true ∧ height y ≤ height w
        · have hnot : ¬ ∀ w ∈ path parent height p, height y ≤ height w → m w = false := by
            rcases hG with ⟨w, hw, hmw, hyw⟩
            exact fun hall => by simp [hall w hw hyw] at hmw
          have hG' : ∃ w ∈ path parent height p ++ [x], m w = true ∧ height y ≤ height w := by
            rcases hG with ⟨w, hw, hmw, hyw⟩
            exact ⟨w, List.mem_append_left _ hw, hmw, hyw⟩
          simp [hG, hnot, hsince]
        · have hall : ∀ w ∈ path parent height p, height y ≤ height w → m w = false := by
            intro w hw hyw
            cases hmw : m w with
            | false => rfl
            | true => exact absurd ⟨w, hw, hmw, hyw⟩ hG
          have hxs : (m x && decide (y ∈ since parent height m x)) = m x := by
            simp [hsince.mpr hall]
          have hG' : (∃ w ∈ path parent height p ++ [x], m w = true ∧ height y ≤ height w) ↔
              m x = true := by
            constructor
            · rintro ⟨w, hw, hmw, hyw⟩
              rcases List.mem_append.mp hw with hw | hw
              · exact absurd ⟨w, hw, hmw, hyw⟩ hG
              · rw [List.mem_singleton] at hw
                rwa [← hw]
            · intro hmx
              exact ⟨x, List.mem_append_right _ (List.mem_singleton_self x), hmx, by omega⟩
          rw [List.countP_singleton, hxs, if_neg hG]
          by_cases hmx : m x = true
          · rw [if_pos hmx, if_pos (hG'.mpr hmx)]
          · rw [if_neg hmx, if_neg (mt hG'.mp hmx)]
      · -- `y` is `x`: no earlier window reaches it
        have hzero : (path parent height p).countP
            (fun w => m w && decide (y ∈ since parent height m w)) = 0 := by
          rw [List.countP_eq_zero]
          intro w hw hyw
          have h1 := height_lt_of_mem_path_of_parent hg h hw
          have h2 := height_le_of_mem_since hg (of_decide_eq_true (Bool.and_eq_true_iff.mp hyw).2)
          omega
        have hnone : ¬ ∃ w ∈ path parent height p, m w = true ∧ height y ≤ height w := by
          rintro ⟨w, hw, -, hyw⟩
          have := height_lt_of_mem_path_of_parent hg h hw
          omega
        cases hm : m y <;> simp [hzero, hnone, hm, mem_since_self hg]

end Count

end GoQuai.Ancestry
