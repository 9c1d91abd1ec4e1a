import GoQuai.Types.TxByPrice

/-! # Filling a block, core/worker.go

`commitTransactions` takes transactions from a `TransactionsByPriceAndNonce`
one at a time and hands each to `commitTransaction`. It answers the outcome
with `Shift`, which brings in the account's next transaction, or with `Pop`,
which brings in none of the account's.

`outcomes` are what `commitTransaction` returns, in turn. The loop checks an
interrupt and a gas pool below `TxGas` before each `Peek`. Either one ends it
before its outcome is used, so here the loop stops early when the outcomes run
out. The loop returns the transactions it handed over, each with the set it
was peeked from, and the set it left.

The worker passes `false` to `Shift` and builds its set with `false`. `sort` is
that argument, with the set built with the same flag. For any order of the map,
any outcomes and either flag, `Honours` holds:
- each account's transactions come as a prefix of its list;
- none come after a `Pop` of the account's head;
- no more come than the map holds, so the loop ends by itself;
- with `sort`, each is the first of the current heads by fee, then by time.
-/

namespace GoQuai.Worker

open GoQuai.Types GoQuai.Types.TransactionsByPriceAndNonce GoQuai.Heap

/-- What `commitTransaction` returned, as the `switch` of `commitTransactions`
tells it apart. -/
inductive CommitOutcome
  | gasLimitReached
  | etxLimitReached
  | nonceTooLow
  | nonceTooHigh
  | ok
  | txTypeNotSupported
  | other
  deriving DecidableEq, Repr

/-- The outcomes the `switch` answers with `Pop`. -/
def CommitOutcome.pops : CommitOutcome → Bool
  | .gasLimitReached | .etxLimitReached | .nonceTooHigh | .txTypeNotSupported => true
  | .nonceTooLow | .ok | .other => false

variable {α τ : Type} [DecidableEq α]

section Loop

variable (sender : τ → α) (effectiveGasTip : τ → Option ℤ) (time : τ → ℤ)

/-- The `switch` on the outcome of `commitTransaction` for a transaction of `acc`. -/
def commitStep (sort : Bool) (outcome : CommitOutcome) (acc : α) (txs : TransactionsByPriceAndNonce α τ) :
    Option (TransactionsByPriceAndNonce α τ) :=
  match outcome with
  | .gasLimitReached => pop time txs
  | .etxLimitReached => pop time txs
  | .nonceTooLow => shift effectiveGasTip time acc sort txs
  | .nonceTooHigh => pop time txs
  | .ok => shift effectiveGasTip time acc sort txs
  | .txTypeNotSupported => pop time txs
  | .other => shift effectiveGasTip time acc sort txs

/-- The loop of `commitTransactions`. -/
def commitTransactions (sort : Bool) : List CommitOutcome → TransactionsByPriceAndNonce α τ →
    Option (List (τ × TransactionsByPriceAndNonce α τ) × TransactionsByPriceAndNonce α τ)
  | [], txs => some ([], txs)
  | outcome :: outcomes, txs =>
      match txs.peek with
      | none => some ([], txs)
      | some tx =>
          (commitStep effectiveGasTip time sort outcome (sender tx) txs).bind fun txs' =>
            (commitTransactions sort outcomes txs').map fun (handled, last) => ((tx, txs) :: handled, last)

/-- What the enumeration guarantees for the map `txs`, the outcomes it was
given, what it handed over and the set it left. -/
structure Honours (sort : Bool) (txs : AList fun _ : α => List τ) (outcomes : List CommitOutcome)
    (handled : List (τ × TransactionsByPriceAndNonce α τ)) (last : TransactionsByPriceAndNonce α τ) : Prop where
  inOrder : ∀ a, (handled.map Prod.fst).filter (fun tx => sender tx = a) <+: accountTxs txs a
  once : (∀ a, (accountTxs txs a).Nodup) → (handled.map Prod.fst).Nodup
  afterPop : ∀ (i j : ℕ) (o : CommitOutcome) (x y : τ × TransactionsByPriceAndNonce α τ), i < j →
    outcomes[i]? = some o → o.pops = true → handled[i]? = some x → handled[j]? = some y → sender y.1 ≠ sender x.1
  bound : handled.length ≤ txCount txs
  stops : txCount txs < outcomes.length → last.peek = none
  best : sort = true → ∀ p ∈ handled, ∃ fee, effectiveGasTip p.1 = some fee ∧
    ∀ h ∈ p.2.heads, ∃ fee', effectiveGasTip h.tx = some fee' ∧ (fee' < fee ∨ fee' = fee ∧ time p.1 ≤ time h.tx)

end Loop

variable {sender : τ → α} {effectiveGasTip : τ → Option ℤ} {time : τ → ℤ}

theorem commitStep_eq (sort : Bool) (outcome : CommitOutcome) (acc : α) (txs : TransactionsByPriceAndNonce α τ) :
    commitStep effectiveGasTip time sort outcome acc txs =
      if outcome.pops then pop time txs else shift effectiveGasTip time acc sort txs := by
  cases outcome <;> rfl

theorem commitTransactions_cons {sort : Bool} {outcome : CommitOutcome} {outcomes : List CommitOutcome}
    {t : TransactionsByPriceAndNonce α τ}
    {r : List (τ × TransactionsByPriceAndNonce α τ) × TransactionsByPriceAndNonce α τ}
    (h : commitTransactions sender effectiveGasTip time sort (outcome :: outcomes) t = some r) :
    (t.peek = none ∧ r = ([], t)) ∨ ∃ tx t' handled last, t.peek = some tx ∧
      commitStep effectiveGasTip time sort outcome (sender tx) t = some t' ∧
      commitTransactions sender effectiveGasTip time sort outcomes t' = some (handled, last) ∧
      r = ((tx, t) :: handled, last) := by
  unfold commitTransactions at h
  split at h
  · rename_i hp
    exact Or.inl ⟨hp, (Option.some.inj h).symm⟩
  · rename_i tx hp
    obtain ⟨t', hstep, h⟩ := Option.bind_eq_some_iff.mp h
    obtain ⟨⟨handled, last⟩, hrun, rfl⟩ := Option.map_eq_some_iff.mp h
    exact Or.inr ⟨tx, t', handled, last, hp, hstep, hrun, rfl⟩

section Run

variable {sort : Bool} {txs₀ : AList fun _ : α => List τ}

/-- One round of the loop: the answer to any outcome keeps the invariant, brings
in no new account, and after a `Pop` the account is gone. -/
theorem commitStep_tracks (hpa : PerAccount sender txs₀) {t : TransactionsByPriceAndNonce α τ} {handed : List τ}
    (ht : Tracks sender effectiveGasTip time sort txs₀ t handed) {h₀ : TxWithMinerFee τ}
    {rest : List (TxWithMinerFee τ)} (hh : t.heads = h₀ :: rest) (outcome : CommitOutcome) :
    ∃ t', commitStep effectiveGasTip time sort outcome (sender h₀.tx) t = some t' ∧
      Tracks sender effectiveGasTip time sort txs₀ t' (handed ++ [h₀.tx]) ∧
      t'.accounts sender ⊆ t.accounts sender ∧ (outcome.pops = true → sender h₀.tx ∉ t'.accounts sender) := by
  rw [commitStep_eq]
  cases hpops : outcome.pops with
  | true =>
      obtain ⟨t', hpop, ht', hperm⟩ := ht.pop hh
      refine ⟨t', hpop, ht', fun a ha => ?_, fun _ hmem => (ht.nodup_cons hh).1 (hperm.subset hmem)⟩
      rw [accounts, hh, List.map_cons]
      exact List.mem_cons_of_mem _ (hperm.subset ha)
  | false =>
      obtain ⟨t', hshift, ht', hsub⟩ := ht.shift hpa hh
      exact ⟨t', hshift, ht', hsub, by simp⟩

/-- The loop runs to the end of the outcomes or to an empty set, keeping the
invariant; every set it peeks from has the invariant and the transaction handed
over as its first head. -/
theorem commitTransactions_tracks (hpa : PerAccount sender txs₀) :
    ∀ (outcomes : List CommitOutcome) (t : TransactionsByPriceAndNonce α τ) (handed : List τ),
      Tracks sender effectiveGasTip time sort txs₀ t handed →
      ∃ steps last, commitTransactions sender effectiveGasTip time sort outcomes t = some (steps, last) ∧
        Tracks sender effectiveGasTip time sort txs₀ last (handed ++ steps.map Prod.fst) ∧
        (steps.length < outcomes.length → last.peek = none) ∧
        ∀ p ∈ steps, ∃ h₀ rest handed', p.2.heads = h₀ :: rest ∧ h₀.tx = p.1 ∧
          Tracks sender effectiveGasTip time sort txs₀ p.2 handed'
  | [], t, handed, ht => ⟨[], t, rfl, by simpa using ht, by simp, by simp⟩
  | outcome :: outcomes, t, handed, ht => by
      cases hp : t.peek with
      | none =>
          refine ⟨[], t, by simp [commitTransactions, hp], by simpa using ht, fun _ => hp, by simp⟩
      | some tx =>
          obtain ⟨h₀, rest, hh, rfl⟩ := peek_eq_some.mp hp
          obtain ⟨t', hstep, ht', -, -⟩ := commitStep_tracks hpa ht hh outcome
          obtain ⟨steps, last, hrun, hlast, hstop, htrace⟩ := commitTransactions_tracks hpa outcomes t' _ ht'
          refine ⟨(h₀.tx, t) :: steps, last, ?_, ?_, ?_, ?_⟩
          · simp [commitTransactions, hp, hstep, hrun]
          · simpa using hlast
          · intro hlt
            exact hstop (by simpa using hlt)
          · intro p hp'
            rcases List.mem_cons.mp hp' with rfl | hp'
            · exact ⟨h₀, rest, handed, hh, rfl, ht⟩
            · exact htrace p hp'

/-- An account without a head gets none handed over later. -/
theorem commitTransactions_gone (hpa : PerAccount sender txs₀) {a : α} :
    ∀ (outcomes : List CommitOutcome) (t : TransactionsByPriceAndNonce α τ) (handed : List τ)
      {steps : List (τ × TransactionsByPriceAndNonce α τ)} {last : TransactionsByPriceAndNonce α τ},
      Tracks sender effectiveGasTip time sort txs₀ t handed → a ∉ t.accounts sender →
      commitTransactions sender effectiveGasTip time sort outcomes t = some (steps, last) → ∀ p ∈ steps, sender p.1 ≠ a
  | [], _, _, _, _, _, _, hrun => by
      simp only [commitTransactions, Option.some.injEq, Prod.mk.injEq] at hrun
      rw [← hrun.1]
      nofun
  | outcome :: outcomes, t, handed, steps, last, ht, ha, hrun => by
      rcases commitTransactions_cons hrun with ⟨-, hr⟩ | ⟨tx, t', handed', last', hp, hstep, hrun', hr⟩
      · rw [(Prod.mk.inj hr).1]
        nofun
      · obtain ⟨h₀, rest, hh, rfl⟩ := peek_eq_some.mp hp
        obtain ⟨t'', hstep', ht', hsub, -⟩ := commitStep_tracks hpa ht hh outcome
        rw [hstep] at hstep'
        cases hstep'
        rw [(Prod.mk.inj hr).1]
        intro p hp'
        rcases List.mem_cons.mp hp' with rfl | hp'
        · -- the transaction handed over is the first head's, whose account has a head
          intro heq
          apply ha
          rw [accounts, hh, List.map_cons, ← heq]
          exact List.mem_cons_self
        · exact commitTransactions_gone hpa outcomes t' _ ht' (fun hmem => ha (hsub hmem)) hrun' p hp'

/-- After a `Pop`, no transaction of that account is handed over. -/
theorem commitTransactions_afterPop (hpa : PerAccount sender txs₀) :
    ∀ (outcomes : List CommitOutcome) (t : TransactionsByPriceAndNonce α τ) (handed : List τ)
      {steps : List (τ × TransactionsByPriceAndNonce α τ)} {last : TransactionsByPriceAndNonce α τ},
      Tracks sender effectiveGasTip time sort txs₀ t handed →
      commitTransactions sender effectiveGasTip time sort outcomes t = some (steps, last) →
      ∀ (i j : ℕ) (o : CommitOutcome) (x y : τ × TransactionsByPriceAndNonce α τ), i < j →
        outcomes[i]? = some o → o.pops = true → steps[i]? = some x → steps[j]? = some y → sender y.1 ≠ sender x.1
  | [], _, _, _, _, _, _, i, _, _, _, _, _, ho, _, _, _ => by simp at ho
  | outcome :: outcomes, t, handed, steps, last, ht, hrun, i, j, o, x, y, hij, ho, hpops, hx, hy => by
      rcases commitTransactions_cons hrun with ⟨-, hr⟩ | ⟨tx, t', handed', last', hp, hstep, hrun', hr⟩
      · rw [(Prod.mk.inj hr).1] at hx
        simp at hx
      · obtain ⟨h₀, rest, hh, rfl⟩ := peek_eq_some.mp hp
        obtain ⟨t'', hstep', ht', -, hgone⟩ := commitStep_tracks hpa ht hh outcome
        rw [hstep] at hstep'
        cases hstep'
        rw [(Prod.mk.inj hr).1] at hx hy
        -- the positions after `i` are those of the rest of the run
        obtain ⟨j, rfl⟩ : ∃ j', j = j' + 1 := ⟨j - 1, by omega⟩
        rw [List.getElem?_cons_succ] at hy
        cases i with
        | zero =>
            simp only [List.getElem?_cons_zero, Option.some.injEq] at ho hx
            subst ho hx
            exact commitTransactions_gone hpa outcomes t' _ ht' (hgone hpops) hrun' y (List.mem_of_getElem? hy)
        | succ i =>
            rw [List.getElem?_cons_succ] at ho hx
            exact commitTransactions_afterPop hpa outcomes t' _ ht' hrun' i j o x y (by omega) ho hpops hx hy

end Run

/-- Block filling honours nonces: over any order of the map's `range`, any
outcomes of `commitTransaction` and either flag, the constructor panics exactly
on an empty list, and otherwise the loop of `commitTransactions` runs and
`Honours` holds. -/
theorem block_filling_honours_nonces (sender : τ → α) (effectiveGasTip : τ → Option ℤ) (time : τ → ℤ)
    (txs : AList fun _ : α => List τ) (sort : Bool) (order : List (Σ _ : α, List τ))
    (horder : order.Perm txs.entries) (hpa : PerAccount sender txs) :
    (new sender effectiveGasTip time txs sort order = none ↔ ∃ a, txs.lookup a = some []) ∧
    ∀ t, new sender effectiveGasTip time txs sort order = some t → ∀ outcomes : List CommitOutcome,
      ∃ handled last, commitTransactions sender effectiveGasTip time sort outcomes t = some (handled, last) ∧
        Honours sender effectiveGasTip time sort txs outcomes handled last := by
  refine ⟨new_eq_none_iff horder, fun t hnew outcomes => ?_⟩
  have ht := new_tracks hpa horder hnew
  obtain ⟨handled, last, hrun, hlast, hstop, htrace⟩ := commitTransactions_tracks hpa outcomes t [] ht
  simp only [List.nil_append] at hlast
  refine ⟨handled, last, hrun, ⟨hlast.handed, hlast.nodup_handed,
    commitTransactions_afterPop hpa outcomes t [] ht hrun, ?_, ?_, ?_⟩⟩
  · simpa using hlast.length_le
  · intro hlt
    have hbound : handled.length ≤ txCount txs := by simpa using hlast.length_le
    exact hstop (by omega)
  · -- each set peeked from is a heap, so its first head is the best
    intro hs p hp
    subst hs
    obtain ⟨h₀, rest, handed', hh, hx, hp'⟩ := htrace p hp
    rw [← hx]
    refine ⟨h₀.minerFee, hp'.fee h₀ (by rw [hh]; exact List.mem_cons_self), fun h hm => ⟨h.minerFee, hp'.fee h hm, ?_⟩⟩
    exact hp'.first_best hh h hm

/-- Accounts 1 and 2 with transactions 10, 11 and 20, 21, where a lower
transaction pays a higher tip, and the outcomes `ok`, `nonceTooHigh`, `ok`,
`ok`, `ok`. Without sorting, as the worker runs it, the heads keep the map's
order: 20 comes first, its `Pop` ends account 2, and 10 and 11 follow. With
sorting, 10 and 11 come first by tip and the `Pop` of 11 ends account 1. -/
theorem block_filling_honours_nonces_two_accounts :
    PerAccount (fun tx : ℕ => tx / 10)
        (AList.insert 2 [20, 21] (AList.insert 1 [10, 11] ∅) : AList fun _ : ℕ => List ℕ) ∧
      ∀ sort : Bool, ∃ t handled last,
        new (fun tx : ℕ => tx / 10) (fun tx => some (30 - tx : ℤ)) (fun tx => (tx : ℤ))
          (AList.insert 2 [20, 21] (AList.insert 1 [10, 11] ∅) : AList fun _ : ℕ => List ℕ) sort
          (AList.insert 2 [20, 21] (AList.insert 1 [10, 11] ∅) : AList fun _ : ℕ => List ℕ).entries = some t ∧
        commitTransactions (fun tx : ℕ => tx / 10) (fun tx => some (30 - tx : ℤ)) (fun tx => (tx : ℤ)) sort
          [.ok, .nonceTooHigh, .ok, .ok, .ok] t = some (handled, last) ∧
        handled.map Prod.fst = (if sort then [10, 11, 20, 21] else [20, 21, 10, 11]) ∧
        Honours (fun tx : ℕ => tx / 10) (fun tx => some (30 - tx : ℤ)) (fun tx => (tx : ℤ)) sort
          (AList.insert 2 [20, 21] (AList.insert 1 [10, 11] ∅) : AList fun _ : ℕ => List ℕ)
          [.ok, .nonceTooHigh, .ok, .ok, .ok] handled last := by
  have hpa : PerAccount (fun tx : ℕ => tx / 10)
      (AList.insert 2 [20, 21] (AList.insert 1 [10, 11] ∅) : AList fun _ : ℕ => List ℕ) := by
    intro a tx htx
    rw [accountTxs] at htx
    show tx / 10 = a
    by_cases h2 : a = 2
    · subst h2
      rw [AList.lookup_insert, Option.getD_some] at htx
      simp only [List.mem_cons, List.not_mem_nil, or_false] at htx
      omega
    · by_cases h1 : a = 1
      · subst h1
        rw [AList.lookup_insert_ne h2, AList.lookup_insert, Option.getD_some] at htx
        simp only [List.mem_cons, List.not_mem_nil, or_false] at htx
        omega
      · rw [AList.lookup_insert_ne h2, AList.lookup_insert_ne h1, AList.lookup_empty, Option.getD_none] at htx
        exact absurd htx List.not_mem_nil
  refine ⟨hpa, fun sort => ?_⟩
  -- the run, evaluated: `Pop` and `Fix` are heap operations on the slice of heads
  have hmap : ((new (fun tx : ℕ => tx / 10) (fun tx => some (30 - tx : ℤ)) (fun tx => (tx : ℤ))
      (AList.insert 2 [20, 21] (AList.insert 1 [10, 11] ∅) : AList fun _ : ℕ => List ℕ) sort
      (AList.insert 2 [20, 21] (AList.insert 1 [10, 11] ∅) : AList fun _ : ℕ => List ℕ).entries).bind
        (commitTransactions (fun tx : ℕ => tx / 10) (fun tx => some (30 - tx : ℤ)) (fun tx => (tx : ℤ)) sort
          [.ok, .nonceTooHigh, .ok, .ok, .ok])).map (fun r => r.1.map Prod.fst) =
      some (if sort then [10, 11, 20, 21] else [20, 21, 10, 11]) := by
    cases sort <;> decide +kernel
  obtain ⟨⟨handled, last⟩, hbind, hhandled⟩ := Option.map_eq_some_iff.mp hmap
  obtain ⟨t, hnew, hct⟩ := Option.bind_eq_some_iff.mp hbind
  obtain ⟨-, hrun⟩ := block_filling_honours_nonces _ _ _ _ sort _ (List.Perm.refl _) hpa
  obtain ⟨handled', last', hct', hhon⟩ := hrun t hnew [.ok, .nonceTooHigh, .ok, .ok, .ok]
  rw [hct, Option.some.injEq, Prod.mk.injEq] at hct'
  obtain ⟨rfl, rfl⟩ := hct'
  exact ⟨t, handled, last, hnew, hct, hhandled, hhon⟩

end GoQuai.Worker
