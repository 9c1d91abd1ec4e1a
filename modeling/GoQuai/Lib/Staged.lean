import Mathlib.Logic.Function.Basic

/-! # Staged writes

A procedure that updates a key-value store runs checks, stages writes in a
batch that is written only when every check has passed, and may also write
some entries straight to the store. A failed check stops it, and what it
leaves behind is exactly the direct writes made before the failure.
-/

namespace Staged

/-- One step: a check that fails with an error or passes, a write staged in
the batch, or a write straight to the store. -/
inductive Op (ε κ ν : Type)
  | check (err : Option ε)
  | stage (k : κ) (v : ν)
  | put (k : κ) (v : ν)

variable {ε κ ν : Type} [DecidableEq κ]

/-- A store with its writes applied in order. -/
def write (db : κ → Option ν) (ws : List (κ × ν)) : κ → Option ν :=
  ws.foldl (fun db w => Function.update db w.1 (some w.2)) db

/-- The direct writes of a list of steps. -/
def puts : List (Op ε κ ν) → List (κ × ν)
  | [] => []
  | .put k v :: ops => (k, v) :: puts ops
  | _ :: ops => puts ops

/-- The checks of a list of steps all pass. -/
def Passes : List (Op ε κ ν) → Prop
  | [] => True
  | .check (some _) :: _ => False
  | _ :: ops => Passes ops

/-- Run the steps on a store and a batch: the store and batch at the end, or
the first error with the store at that point. -/
def run : List (Op ε κ ν) → (κ → Option ν) → List (κ × ν) →
    Except (ε × (κ → Option ν)) ((κ → Option ν) × List (κ × ν))
  | [], db, batch => .ok (db, batch)
  | .check none :: ops, db, batch => run ops db batch
  | .check (some e) :: _, db, _ => .error (e, db)
  | .stage k v :: ops, db, batch => run ops db (batch ++ [(k, v)])
  | .put k v :: ops, db, batch => run ops (Function.update db k (some v)) batch

-- Generate the equation lemmas of these definitions once, here, rather than in
-- each of the proofs below that unfold them while they are elaborated in parallel.
section
attribute [local simp] run
end

/-- Run the steps from an empty batch, then write the batch. -/
def commit (ops : List (Op ε κ ν)) (db : κ → Option ν) :
    Except (ε × (κ → Option ν)) (κ → Option ν) :=
  match run ops db [] with
  | .error p => .error p
  | .ok (db, batch) => .ok (write db batch)

theorem run_ne_error_of_passes {ops : List (Op ε κ ν)} (hpass : Passes ops)
    (db : κ → Option ν) (batch : List (κ × ν)) (p : ε × (κ → Option ν)) :
    run ops db batch ≠ .error p := by
  induction ops generalizing db batch with
  | nil => simp [run]
  | cons op ops ih =>
      cases op with
      | check err =>
          cases err with
          | none => exact ih hpass db batch
          | some e => exact hpass.elim
      | stage k v => exact ih hpass db _
      | put k v => exact ih hpass _ batch

/-- Steps whose direct writes all come after their last check leave the store
as it was when they fail. -/
theorem run_error_of_puts_after {pre post : List (Op ε κ ν)} (hpre : puts pre = [])
    (hpost : Passes post) {db db' : κ → Option ν} {batch : List (κ × ν)} {e : ε}
    (h : run (pre ++ post) db batch = .error (e, db')) : db' = db := by
  induction pre generalizing db batch with
  | nil => exact absurd h (run_ne_error_of_passes hpost db batch _)
  | cons op pre ih =>
      cases op with
      | check err =>
          cases err with
          | none => exact ih hpre h
          | some e' =>
              simp only [List.cons_append, run, Except.error.injEq, Prod.mk.injEq] at h
              exact h.2.symm
      | stage k v => exact ih hpre h
      | put k v => cases hpre

theorem commit_error {ops : List (Op ε κ ν)} {db db' : κ → Option ν} {e : ε}
    (h : commit ops db = .error (e, db')) : run ops db [] = .error (e, db') := by
  unfold commit at h
  split at h
  · rename_i p hp
    cases h
    exact hp
  · cases h

end Staged
