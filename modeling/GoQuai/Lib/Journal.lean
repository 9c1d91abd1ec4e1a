import GoQuai.Lib.Search
import Mathlib.Logic.Function.Basic
import Mathlib.Data.List.Pairwise
import Mathlib.Data.Int.Basic
import Mathlib.Tactic.Set

/-! # Undo journals with revisions

A journal records, for each change made to a state, an entry that undoes it,
and counts per key the entries that touched the key. Reverting to an earlier
length undoes the newer entries, last first, and takes their counts back.
Revisions name journal lengths: a snapshot pushes the current length under a
fresh id, and reverting to an id finds it by binary search among the live
revisions, reverts the journal to its length, and drops it and every later
revision.

The main result: when the entries of every operation undo it, reverting to a
snapshot undoes everything done since, snapshots and reverts nested inside
included, and gives back every count but those of keys an operation marks by
hand.
-/

namespace GoQuai.Undo

open Function

variable {σ ε α : Type}

section Entries

variable (undo : ε → σ → Option σ)

/-- Undo `es`, last first. -/
def undoAll : List ε → σ → Option σ
  | [], s => some s
  | e :: es, s => (undoAll es s).bind (undo e)

-- Generate the equation lemmas of these definitions once, here, rather than in
-- each of the proofs below that unfold them while they are elaborated in parallel.
section
attribute [local simp] undoAll
end

theorem undoAll_append (es₁ es₂ : List ε) (s : σ) :
    undoAll undo (es₁ ++ es₂) s = (undoAll undo es₂ s).bind (undoAll undo es₁) := by
  induction es₁ with
  | nil =>
    rw [List.nil_append]
    cases undoAll undo es₂ s <;> rfl
  | cons e es ih => simp only [List.cons_append, undoAll, ih, Option.bind_assoc]

@[simp] theorem undoAll_singleton (e : ε) (s : σ) : undoAll undo [e] s = undo e s := rfl

/-- The entries `es` take `s'` back to `s`. -/
def Undoes (es : List ε) (s' s : σ) : Prop := undoAll undo es s' = some s

theorem Undoes.append {es₁ es₂ : List ε} {s₀ s₁ s₂ : σ} (h₁ : Undoes undo es₁ s₁ s₀)
    (h₂ : Undoes undo es₂ s₂ s₁) : Undoes undo (es₁ ++ es₂) s₂ s₀ := by
  unfold Undoes at *
  rw [undoAll_append, h₂, Option.bind_some, h₁]

/-- Undoing a later part first leaves the earlier part to undo. -/
theorem Undoes.of_append {es₁ es₂ : List ε} {s₀ s₁ s₂ : σ} (h : Undoes undo (es₁ ++ es₂) s₂ s₀)
    (h₂ : undoAll undo es₂ s₂ = some s₁) : Undoes undo es₁ s₁ s₀ := by
  unfold Undoes at *
  rwa [undoAll_append, h₂, Option.bind_some] at h

end Entries

section Counts

variable [DecidableEq α] (key : ε → Option α)

/-- How many of `es` touched `a`. -/
def tally (es : List ε) (a : α) : ℤ := (es.countP fun e => key e = some a : ℕ)

@[simp] theorem tally_nil (a : α) : tally key [] a = 0 := rfl

theorem tally_append (es₁ es₂ : List ε) (a : α) :
    tally key (es₁ ++ es₂) a = tally key es₁ a + tally key es₂ a := by
  simp [tally, List.countP_append]

theorem tally_cons (e : ε) (es : List ε) (a : α) :
    tally key (e :: es) a = tally key es a + if key e = some a then 1 else 0 := by
  simp only [tally, List.countP_cons]
  split_ifs <;> simp_all

end Counts

/-- The journal: its entries in order and, per key, how many of them (and how
many marks by hand) touched it. -/
structure Journal (ε α : Type) where
  entries : List ε
  dirties : α → ℤ

namespace Journal

variable [DecidableEq α] (undo : ε → σ → Option σ) (key : ε → Option α)

/-- `journal.append`. -/
def append (j : Journal ε α) (e : ε) : Journal ε α where
  entries := j.entries ++ [e]
  dirties := match key e with
    | some a => update j.dirties a (j.dirties a + 1)
    | none => j.dirties

/-- `journal.dirty`: count a key without an entry. -/
def dirty (j : Journal ε α) (a : α) : Journal ε α :=
  { j with dirties := update j.dirties a (j.dirties a + 1) }

/-- The loop of `journal.revert` over the entries it undoes, last first; each
takes its count back. A count that reaches zero is deleted from Go's map, which
reads as zero again. -/
def revertLoop : List ε → σ → (α → ℤ) → Option (σ × (α → ℤ))
  | [], s, d => some (s, d)
  | e :: es, s, d => do
      let (s, d) ← revertLoop es s d
      let s ← undo e s
      some (s, match key e with
        | some a => update d a (d a - 1)
        | none => d)

/-- `journal.revert`: undo the entries from `snapshot` on and cut them off. -/
def revert (j : Journal ε α) (s : σ) (snapshot : ℕ) : Option (σ × Journal ε α) := do
  let (s, d) ← revertLoop undo key (j.entries.drop snapshot) s j.dirties
  some (s, ⟨j.entries.take snapshot, d⟩)

theorem revertLoop_eq (es : List ε) (s : σ) (d : α → ℤ) :
    revertLoop undo key es s d =
      (undoAll undo es s).map fun s' => (s', fun a => d a - tally key es a) := by
  induction es with
  | nil => simp [revertLoop, undoAll]
  | cons e es ih =>
      simp only [revertLoop, undoAll, ih, Option.bind_eq_bind]
      cases undoAll undo es s with
      | none => rfl
      | some s₁ =>
          simp only [Option.map_some, Option.bind_some]
          cases undo e s₁ with
          | none => rfl
          | some s₂ =>
              simp only [Option.bind_some, Option.map_some, Option.some.injEq, Prod.mk.injEq,
                true_and]
              funext a
              rw [tally_cons]
              cases hk : key e with
              | none => simp
              | some b =>
                  by_cases hab : a = b
                  · subst hab
                    simp only [update_self, if_true]
                    omega
                  · simp only [update_of_ne hab, Option.some.injEq, Ne.symm hab, if_false]
                    omega

theorem revert_eq (j : Journal ε α) (s : σ) (snapshot : ℕ) :
    j.revert undo key s snapshot =
      (undoAll undo (j.entries.drop snapshot) s).map fun s' =>
        (s', ⟨j.entries.take snapshot, fun a => j.dirties a - tally key (j.entries.drop snapshot) a⟩) := by
  rw [revert, revertLoop_eq]
  cases undoAll undo (j.entries.drop snapshot) s <;> rfl

theorem foldl_append_entries (es : List ε) (j : Journal ε α) :
    (es.foldl (append key) j).entries = j.entries ++ es := by
  induction es generalizing j with
  | nil => simp
  | cons e es ih => simp [ih, append]

theorem foldl_append_dirties (es : List ε) (j : Journal ε α) (a : α) :
    (es.foldl (append key) j).dirties a = j.dirties a + tally key es a := by
  induction es generalizing j with
  | nil => simp
  | cons e es ih =>
      rw [List.foldl_cons, ih, tally_cons, append]
      cases hk : key e with
      | none => simp
      | some b =>
          simp only [update_apply]
          -- only an entry of key `a` counts for `a`
          by_cases hab : a = b
          · subst hab
            simp only [if_true]
            omega
          · have hne : some b ≠ some a := fun h => hab (Option.some.inj h).symm
            rw [if_neg hab, if_neg hne]
            omega

theorem foldl_dirty_entries (xs : List α) (j : Journal ε α) :
    (xs.foldl dirty j).entries = j.entries := by
  induction xs generalizing j with
  | nil => rfl
  | cons x xs ih => rw [List.foldl_cons, ih]; rfl

theorem foldl_dirty_dirties (xs : List α) (j : Journal ε α) (a : α) :
    (xs.foldl dirty j).dirties a = j.dirties a + xs.count a := by
  induction xs generalizing j with
  | nil => simp
  | cons x xs ih =>
      rw [List.foldl_cons, ih, List.count_cons]
      simp only [dirty, update_apply, beq_iff_eq]
      by_cases h : a = x
      · subst h
        simp only [if_true]
        omega
      · simp only [h, if_false, Ne.symm h]
        omega

end Journal

/-- A live snapshot: its id and the journal length it names. -/
structure Revision where
  id : ℕ
  journalIndex : ℕ
  deriving DecidableEq

/-- A state under a journal with revisions: what `Snapshot` and
`RevertToSnapshot` manage. -/
structure Machine (σ ε α : Type) where
  state : σ
  journal : Journal ε α
  validRevisions : List Revision
  nextRevisionId : ℕ

/-- What a run does: an operation on the state, `Snapshot`, or
`RevertToSnapshot`. -/
inductive Cmd (Op : Type)
  | act (op : Op)
  | snapshot
  | revertToSnapshot (revid : ℕ)

namespace Machine

variable [DecidableEq α] (undo : ε → σ → Option σ) (key : ε → Option α)

/-- `Snapshot`: the fresh id, and the machine with its revision pushed. -/
def snapshot (m : Machine σ ε α) : ℕ × Machine σ ε α :=
  (m.nextRevisionId,
    { m with
      nextRevisionId := m.nextRevisionId + 1
      validRevisions := m.validRevisions ++ [⟨m.nextRevisionId, m.journal.entries.length⟩] })

/-- The predicate `sort.Search` runs over the revisions. Go only calls it below
the length, so past the end it is given the value `true` that keeps it
monotone. -/
def atOrAfter (revisions : List Revision) (revid : ℕ) (i : ℕ) : Bool :=
  match revisions[i]? with
  | some r => decide (revid ≤ r.id)
  | none => true

/-- `RevertToSnapshot`: an id that is not live panics. -/
def revertToSnapshot (m : Machine σ ε α) (revid : ℕ) : Option (Machine σ ε α) := do
  let idx := Search.sortSearch m.validRevisions.length (atOrAfter m.validRevisions revid)
  let r ← m.validRevisions[idx]?
  if r.id ≠ revid then none
  else
    let (s, j) ← m.journal.revert undo key m.state r.journalIndex
    some { m with state := s, journal := j, validRevisions := m.validRevisions.take idx }

variable {Op : Type} (step : Op → σ → Option (σ × List ε × List α))

/-- An operation: its entries go to the journal in order, and the keys it
marks by hand are counted. -/
def act (m : Machine σ ε α) (op : Op) : Option (Machine σ ε α) := do
  let (s, es, xs) ← step op m.state
  some { m with state := s, journal := xs.foldl Journal.dirty (es.foldl (Journal.append key) m.journal) }

def exec : Cmd Op → Machine σ ε α → Option (Machine σ ε α)
  | .act op, m => m.act key step op
  | .snapshot, m => some m.snapshot.2
  | .revertToSnapshot revid, m => m.revertToSnapshot undo key revid

def run : List (Cmd Op) → Machine σ ε α → Option (Machine σ ε α)
  | [], m => some m
  | c :: cs, m => (exec undo key step c m).bind (run cs)

section
attribute [local simp] run
end

/-- Revision ids increase along the list and are all below the next id: true
of a fresh machine and kept by every command. -/
def WellFormed (m : Machine σ ε α) : Prop :=
  m.validRevisions.Pairwise (fun r r' => r.id < r'.id) ∧ ∀ r ∈ m.validRevisions, r.id < m.nextRevisionId

/-- No operation marks `a` by hand. -/
def Clean (a : α) : Prop := ∀ op s s' es xs, step op s = some (s', es, xs) → a ∉ xs

omit [DecidableEq α] in
theorem wellFormed_snapshot {m : Machine σ ε α} (hwf : m.WellFormed) : m.snapshot.2.WellFormed := by
  obtain ⟨hsorted, hbelow⟩ := hwf
  refine ⟨List.pairwise_append.mpr ⟨hsorted, List.pairwise_singleton _ _, ?_⟩, ?_⟩
  · intro r hr r' hr'
    rw [List.mem_singleton] at hr'
    subst hr'
    exact hbelow r hr
  · intro r hr
    rcases List.mem_append.mp hr with hr | hr
    · exact Nat.lt_succ_of_lt (hbelow r hr)
    · rw [List.mem_singleton] at hr
      subst hr
      exact Nat.lt_succ_self _

theorem atOrAfter_monotone {revisions : List Revision}
    (hsorted : revisions.Pairwise fun r r' => r.id < r'.id) (revid : ℕ) :
    Monotone (atOrAfter revisions revid) := by
  intro i j hij
  unfold atOrAfter
  rcases Nat.lt_or_ge j revisions.length with hj | hj
  · rw [List.getElem?_eq_getElem (by omega), List.getElem?_eq_getElem hj]
    -- ids grow along the list, so a later revision is at or after `revid` too
    have hle : revisions[i].id ≤ revisions[j].id := by
      rcases Nat.lt_or_eq_of_le hij with h | h
      · exact Nat.le_of_lt (List.pairwise_iff_getElem.mp hsorted i j (by omega) hj h)
      · subst h
        exact le_rfl
    rw [Bool.le_iff_imp, decide_eq_true_iff, decide_eq_true_iff]
    exact fun h => le_trans h hle
  · rw [List.getElem?_eq_none hj]
    exact Bool.le_true _

theorem wellFormed_exec {m m' : Machine σ ε α} (hwf : m.WellFormed) {c : Cmd Op}
    (h : exec undo key step c m = some m') : m'.WellFormed := by
  cases c with
  | act op =>
      -- an operation touches neither the revisions nor the next id
      unfold exec act at h
      rcases hs : step op m.state with _ | ⟨s', es, xs⟩
      · simp [hs] at h
      simp only [hs, Option.bind_eq_bind, Option.bind_some, Option.some.injEq] at h
      exact h ▸ hwf
  | snapshot =>
      simp only [exec, Option.some.injEq] at h
      exact h ▸ wellFormed_snapshot hwf
  | revertToSnapshot revid =>
      -- a revert keeps a prefix of the revisions
      simp only [exec, revertToSnapshot, Option.bind_eq_bind] at h
      rcases hr : m.validRevisions[Search.sortSearch m.validRevisions.length
          (atOrAfter m.validRevisions revid)]? with _ | r
      · simp [hr] at h
      simp only [hr, Option.bind_some] at h
      split_ifs at h
      rcases hj : m.journal.revert undo key m.state r.journalIndex with _ | ⟨s', j⟩
      · simp [hj] at h
      simp only [hj, Option.bind_some, Option.some.injEq] at h
      subst h
      exact ⟨hwf.1.sublist (List.take_sublist _ _), fun r hr => hwf.2 r (List.mem_of_mem_take hr)⟩

theorem wellFormed_run : ∀ (cmds : List (Cmd Op)) {m m' : Machine σ ε α}, m.WellFormed →
    run undo key step cmds m = some m' → m'.WellFormed
  | [], _, _, hwf, h => by
      simp only [run, Option.some.injEq] at h
      exact h ▸ hwf
  | c :: cs, m, _, hwf, h => by
      simp only [run] at h
      rcases hc : exec undo key step c m with _ | m₁
      · simp [hc] at h
      rw [hc, Option.bind_some] at h
      exact wellFormed_run cs (wellFormed_exec undo key step hwf hc) h

end Machine

section Since

open Machine

variable [DecidableEq α] {undo : ε → σ → Option σ} {key : ε → Option α} {Op : Type}
  {step : Op → σ → Option (σ × List ε × List α)}

/-- What holds of every machine a run reaches from the snapshot of `m₀`: the
snapshot's revision is live with only later ones after it, the journal extends
the one at the snapshot by entries that undo the run, and the counts grew by
their tally and by the marks made by hand. -/
structure Since (undo : ε → σ → Option σ) (key : ε → Option α)
    (step : Op → σ → Option (σ × List ε × List α)) (m₀ m : Machine σ ε α) : Prop where
  revisions : ∃ L, m.validRevisions =
      m₀.validRevisions ++ ⟨m₀.nextRevisionId, m₀.journal.entries.length⟩ :: L ∧
    L.Pairwise (fun r r' => r.id < r'.id) ∧
    ∀ r ∈ L, m₀.nextRevisionId < r.id ∧ m₀.journal.entries.length ≤ r.journalIndex
  below_next : ∀ r ∈ m.validRevisions, r.id < m.nextRevisionId
  journal : ∃ E, m.journal.entries = m₀.journal.entries ++ E ∧ Undoes undo E m.state m₀.state ∧
    ∀ a, m₀.journal.dirties a + tally key E a ≤ m.journal.dirties a ∧
      (Clean step a → m.journal.dirties a = m₀.journal.dirties a + tally key E a)

namespace Since

variable {m₀ m m' : Machine σ ε α}

/-- The revisions of a machine reached from the snapshot of a well-formed `m₀`
are sorted by id. -/
theorem sorted (hwf : m₀.WellFormed) (h : Since undo key step m₀ m) :
    m.validRevisions.Pairwise fun r r' => r.id < r'.id := by
  obtain ⟨L, hV, hLs, hL⟩ := h.revisions
  rw [hV, List.pairwise_append, List.pairwise_cons]
  refine ⟨hwf.1, ⟨fun r hr => (hL r hr).1, hLs⟩, ?_⟩
  intro r hr r' hr'
  have hlt := hwf.2 r hr
  rcases List.mem_cons.mp hr' with rfl | hr'
  · exact hlt
  · exact Nat.lt_trans hlt (hL r' hr').1

/-- At or below the snapshot's position the revisions are the snapshot's own
or older ones, whose ids are at most the snapshot's. -/
theorem id_le (hwf : m₀.WellFormed) (h : Since undo key step m₀ m) {i : ℕ}
    (hi : i ≤ m₀.validRevisions.length) :
    ∃ r, m.validRevisions[i]? = some r ∧ r.id ≤ m₀.nextRevisionId := by
  obtain ⟨L, hV, -, -⟩ := h.revisions
  rw [hV]
  rcases Nat.lt_or_eq_of_le hi with hi | rfl
  · rw [List.getElem?_append_left hi, List.getElem?_eq_getElem hi]
    exact ⟨_, rfl, Nat.le_of_lt (hwf.2 _ (List.getElem_mem hi))⟩
  · rw [List.getElem?_append_right (le_refl _), Nat.sub_self]
    exact ⟨_, rfl, le_rfl⟩

theorem snapshot_self (hwf : m₀.WellFormed) : Since undo key step m₀ m₀.snapshot.2 where
  revisions := ⟨[], rfl, List.Pairwise.nil, by simp⟩
  below_next := (wellFormed_snapshot hwf).2
  journal := ⟨[], by simp [Machine.snapshot], rfl, fun a => by simp [Machine.snapshot]⟩

theorem act (hstep : ∀ op s s' es xs, step op s = some (s', es, xs) → Undoes undo es s' s)
    (h : Since undo key step m₀ m) {op : Op} (hact : m.act key step op = some m') :
    Since undo key step m₀ m' := by
  unfold Machine.act at hact
  rcases hs : step op m.state with _ | ⟨s', es, xs⟩
  · simp [hs] at hact
  simp only [hs, Option.bind_eq_bind, Option.bind_some, Option.some.injEq] at hact
  subst hact
  obtain ⟨E, hJ, hE, hd⟩ := h.journal
  refine ⟨h.revisions, h.below_next, E ++ es, ?_, hE.append undo (hstep op _ _ _ _ hs), ?_⟩
  · rw [Journal.foldl_dirty_entries, Journal.foldl_append_entries, hJ, List.append_assoc]
  · -- the new entries add their tally, the marks by hand add to it
    intro a
    rw [Journal.foldl_dirty_dirties, Journal.foldl_append_dirties, tally_append]
    refine ⟨by have := (hd a).1; omega, fun hclean => ?_⟩
    have hnot : xs.count a = 0 := List.count_eq_zero.mpr (hclean op _ _ _ _ hs)
    rw [hnot, (hd a).2 hclean]
    omega

theorem snapshot (h : Since undo key step m₀ m) : Since undo key step m₀ m.snapshot.2 := by
  obtain ⟨L, hV, hLs, hL⟩ := h.revisions
  obtain ⟨E, hJ, hE, hd⟩ := h.journal
  have hours : m₀.nextRevisionId < m.nextRevisionId :=
    h.below_next _ (by rw [hV]; exact List.mem_append_right _ (List.mem_cons_self ..))
  refine ⟨⟨L ++ [⟨m.nextRevisionId, m.journal.entries.length⟩], ?_, ?_, ?_⟩, ?_, ⟨E, hJ, hE, hd⟩⟩
  · simp [Machine.snapshot, hV]
  · -- the pushed id is above every live one
    refine List.pairwise_append.mpr ⟨hLs, List.pairwise_singleton _ _, fun r hr r' hr' => ?_⟩
    rw [List.mem_singleton] at hr'
    subst hr'
    exact h.below_next r (by rw [hV]; simp [hr])
  · intro r hr
    rcases List.mem_append.mp hr with hr | hr
    · exact hL r hr
    · rw [List.mem_singleton] at hr
      subst hr
      refine ⟨hours, ?_⟩
      simp [hJ]
  · intro r hr
    rcases List.mem_append.mp hr with hr | hr
    · exact Nat.lt_succ_of_lt (h.below_next r hr)
    · rw [List.mem_singleton] at hr
      subst hr
      exact Nat.lt_succ_self _

/-- A nested revert, to an id issued after the snapshot, cuts the journal back
to a length at or above the snapshot's. -/
theorem revert (hwf : m₀.WellFormed) (h : Since undo key step m₀ m) {revid : ℕ}
    (hrevid : m₀.nextRevisionId < revid) (hrev : m.revertToSnapshot undo key revid = some m') :
    Since undo key step m₀ m' := by
  obtain ⟨L, hV, hLs, hL⟩ := h.revisions
  obtain ⟨E, hJ, hE, hd⟩ := h.journal
  obtain ⟨-, hle, -, htrue⟩ := Search.search_spec (atOrAfter_monotone (h.sorted hwf) revid)
    m.validRevisions.length 0 m.validRevisions.length (Nat.sub_le _ _) (Nat.zero_le _)
  set idx := Search.search (atOrAfter m.validRevisions revid) m.validRevisions.length 0
    m.validRevisions.length with hidx
  -- the search passes the snapshot's revision, whose id is below `revid`
  have hpast : m₀.validRevisions.length < idx := by
    by_contra hnot
    obtain ⟨r, hr, hrid⟩ := h.id_le hwf (i := idx) (by omega)
    have hlt : idx < m.validRevisions.length := (List.getElem?_eq_some_iff.mp hr).1
    have hat := htrue hlt
    rw [atOrAfter, hr, decide_eq_true_iff] at hat
    omega
  unfold Machine.revertToSnapshot at hrev
  rw [Search.sortSearch, ← hidx] at hrev
  rcases hr : m.validRevisions[idx]? with _ | r
  · simp [hr] at hrev
  have hrL : r ∈ L := by
    rw [hV, List.getElem?_append_right (by omega)] at hr
    obtain ⟨j, hj⟩ : ∃ j, idx - m₀.validRevisions.length = j + 1 :=
      ⟨idx - m₀.validRevisions.length - 1, by omega⟩
    rw [hj, List.getElem?_cons_succ] at hr
    exact List.mem_of_getElem? hr
  have hk := (hL r hrL).2
  simp only [hr, Option.bind_eq_bind, Option.bind_some, Journal.revert_eq] at hrev
  split_ifs at hrev
  rw [hJ, List.drop_append, List.drop_eq_nil_of_le (by omega),
    List.nil_append] at hrev
  rcases hu : undoAll undo (E.drop (r.journalIndex - m₀.journal.entries.length)) m.state with _ | s'
  · simp [hu] at hrev
  simp only [hu, Option.map_some, Option.bind_some, Option.some.injEq] at hrev
  subst hrev
  have hsplit := List.take_append_drop (r.journalIndex - m₀.journal.entries.length) E
  -- cutting at `idx` keeps everything up to the snapshot's revision
  have htake : m.validRevisions.take idx = m₀.validRevisions ++
      ⟨m₀.nextRevisionId, m₀.journal.entries.length⟩ :: L.take (idx - m₀.validRevisions.length - 1) := by
    obtain ⟨j, hj⟩ : ∃ j, idx - m₀.validRevisions.length = j + 1 :=
      ⟨idx - m₀.validRevisions.length - 1, by omega⟩
    rw [hV, List.take_append, List.take_of_length_le (by omega), hj, List.take_succ_cons,
      Nat.add_sub_cancel]
  refine ⟨⟨L.take (idx - m₀.validRevisions.length - 1), ?_, hLs.sublist (List.take_sublist _ _),
      fun r hr => hL r (List.mem_of_mem_take hr)⟩, ?_, ⟨E.take (r.journalIndex - m₀.journal.entries.length), ?_, ?_, ?_⟩⟩
  · exact htake
  · exact fun r hr => h.below_next r (List.mem_of_mem_take hr)
  · simp only
    rw [List.take_append, List.take_of_length_le (by omega)]
  · rw [← hsplit] at hE
    exact hE.of_append undo hu
  · intro a
    have hdrop := tally_append key (E.take (r.journalIndex - m₀.journal.entries.length)) (E.drop (r.journalIndex - m₀.journal.entries.length)) a
    rw [hsplit] at hdrop
    dsimp only
    refine ⟨by have := (hd a).1; omega, fun hclean => ?_⟩
    have := (hd a).2 hclean
    omega

theorem run (hwf : m₀.WellFormed)
    (hstep : ∀ op s s' es xs, step op s = some (s', es, xs) → Undoes undo es s' s) :
    ∀ (cmds : List (Cmd Op)) (m : Machine σ ε α), Since undo key step m₀ m →
      (∀ revid, Cmd.revertToSnapshot revid ∈ cmds → m₀.nextRevisionId < revid) →
        Machine.run undo key step cmds m = some m' → Since undo key step m₀ m'
  | [], m, h, _, hrun => by
      simp only [Machine.run, Option.some.injEq] at hrun
      exact hrun ▸ h
  | c :: cs, m, h, hcmds, hrun => by
      simp only [Machine.run] at hrun
      rcases hc : exec undo key step c m with _ | m₁
      · simp [hc] at hrun
      rw [hc, Option.bind_some] at hrun
      refine run hwf hstep cs m₁ ?_ (fun revid hr => hcmds revid (List.mem_cons_of_mem _ hr)) hrun
      -- one step per kind of command
      cases c with
      | act op => exact h.act hstep hc
      | snapshot =>
          simp only [exec, Option.some.injEq] at hc
          exact hc ▸ h.snapshot
      | revertToSnapshot revid =>
          exact h.revert hwf (hcmds revid (List.mem_cons_self ..)) hc

/-- Back at the snapshot: the search lands on the snapshot's revision, and the
journal's new entries undo the run. -/
theorem revert_self (hwf : m₀.WellFormed) (h : Since undo key step m₀ m) :
    ∃ m', m.revertToSnapshot undo key m₀.nextRevisionId = some m' ∧ m'.state = m₀.state ∧
      m'.journal.entries = m₀.journal.entries ∧ m'.validRevisions = m₀.validRevisions ∧
      ∀ a, m₀.journal.dirties a ≤ m'.journal.dirties a ∧
        (Clean step a → m'.journal.dirties a = m₀.journal.dirties a) := by
  obtain ⟨L, hV, -, -⟩ := h.revisions
  obtain ⟨E, hJ, hE, hd⟩ := h.journal
  have hidx : Search.sortSearch m.validRevisions.length
      (atOrAfter m.validRevisions m₀.nextRevisionId) = m₀.validRevisions.length := by
    refine Search.sortSearch_eq (atOrAfter_monotone (h.sorted hwf) _) (by rw [hV]; simp)
      (fun i hi => ?_) (fun _ => ?_)
    · rw [atOrAfter, hV, List.getElem?_append_left hi, List.getElem?_eq_getElem hi,
        decide_eq_false_iff_not, not_le]
      exact hwf.2 _ (List.getElem_mem hi)
    · rw [atOrAfter, hV, List.getElem?_append_right (le_refl _), Nat.sub_self]
      simp
  have hundo : undoAll undo E m.state = some m₀.state := hE
  simp only [Machine.revertToSnapshot, hidx]
  rw [hV, List.getElem?_append_right (le_refl _), Nat.sub_self]
  simp only [List.getElem?_cons_zero, Option.bind_eq_bind, Option.bind_some, ne_eq,
    not_true_eq_false, if_false, Journal.revert_eq, hJ, List.drop_left, hundo, Option.map_some,
    List.take_left' rfl]
  refine ⟨_, rfl, rfl, rfl, rfl, fun a => ?_⟩
  dsimp only
  refine ⟨by have := (hd a).1; omega, fun hclean => ?_⟩
  have := (hd a).2 hclean
  omega

end Since

/-- Reverting to a snapshot after any run that reverts only to later snapshots
restores the state, the journal's entries and the live revisions, and gives
back the count of every key no operation marks by hand; no count drops below
its value at the snapshot. -/
theorem revertToSnapshot_run
    (hstep : ∀ op s s' es xs, step op s = some (s', es, xs) → Undoes undo es s' s)
    {m₀ m : Machine σ ε α} (hwf : m₀.WellFormed) {cmds : List (Cmd Op)}
    (hcmds : ∀ revid, Cmd.revertToSnapshot revid ∈ cmds → m₀.nextRevisionId < revid)
    (hrun : Machine.run undo key step cmds m₀.snapshot.2 = some m) :
    ∃ m', m.revertToSnapshot undo key m₀.nextRevisionId = some m' ∧ m'.state = m₀.state ∧
      m'.journal.entries = m₀.journal.entries ∧ m'.validRevisions = m₀.validRevisions ∧
      ∀ a, m₀.journal.dirties a ≤ m'.journal.dirties a ∧
        (Machine.Clean step a → m'.journal.dirties a = m₀.journal.dirties a) :=
  (Since.run hwf hstep cmds _ (Since.snapshot_self hwf) hcmds hrun).revert_self hwf

end Since

end GoQuai.Undo