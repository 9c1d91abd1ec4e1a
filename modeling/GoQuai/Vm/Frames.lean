import GoQuai.Vm.Etx

/-! # Call frames, rollback and the ETX cache

`EVM.Call` and its siblings take a `StateDB` snapshot when a frame starts and
revert to it when the frame ends in an error. The journal behind the snapshot
covers balances, nonces and logs, but `opETX` appends its ETX to
`EVM.ETXCache`, which no revert touches; `TransitionDb` returns the whole cache
as the transaction's ETXs once the top-level call is over.

An execution is given by its tree of frames, each with whether it failed
(`REVERT`, out of gas or another error), and the ETX opcodes in them.
-/

namespace GoQuai.Vm

open GoQuai.Types (Address)

/-- The frames of an execution and the ETX opcodes run in them. -/
inductive Exec
  | skip
  | seq (p q : Exec)
  | etx (self caller : Address) (a : EtxCall)
  | frame (body : Exec) (failed : Bool)

/-- The frames of an execution that fail nowhere. -/
def Exec.NoFailure : Exec → Prop
  | .skip => True
  | .seq p q => p.NoFailure ∧ q.NoFailure
  | .etx .. => True
  | .frame body failed => failed = false ∧ body.NoFailure

variable (c : Chain)

/-- The interpreter: a failed frame restores the `StateDB` of its snapshot and
keeps the `ETXCache` as it is. -/
def exec : Exec → StateDB → List ExternalTx → StateDB × List ExternalTx
  | .skip, s, cache => (s, cache)
  | .seq p q, s, cache => exec q (exec p s cache).1 (exec p s cache).2
  | .etx self caller a, s, cache => ((opETX c self caller s cache a).state, (opETX c self caller s cache a).cache)
  | .frame body failed, s, cache =>
      let r := exec body s cache
      (if failed then s else r.1, r.2)

/-- Atomic rollback: a failed frame takes back its ETXs with the rest of its
effects. -/
def execAtomic : Exec → StateDB → List ExternalTx → StateDB × List ExternalTx
  | .skip, s, cache => (s, cache)
  | .seq p q, s, cache => execAtomic q (execAtomic p s cache).1 (execAtomic p s cache).2
  | .etx self caller a, s, cache => ((opETX c self caller s cache a).state, (opETX c self caller s cache a).cache)
  | .frame body failed, s, cache => if failed then (s, cache) else execAtomic body s cache

/-- What `TransitionDb` returns of the top-level call: its error and the ETXs. -/
structure ExecutionResult where
  failed : Bool
  etxs : List ExternalTx

/-- `StateTransition.TransitionDb` from the top-level call on: the call is a
frame, and the drained `ETXCache` started empty. -/
def transitionDb (body : Exec) (failed : Bool) (s : StateDB) : StateDB × ExecutionResult :=
  let r := exec c (.frame body failed) s []
  (r.1, ⟨failed, r.2⟩)

variable {c}

theorem opETX_state_cache (self caller : Address) (s : StateDB) (cache cache' : List ExternalTx)
    (a : EtxCall) :
    (opETX c self caller s cache a).state = (opETX c self caller s cache' a).state := by
  cases hv : validateETXGasPriceAndTip c caller (bytes20ToAddress a.addr) a.gasFeeCap.val
      a.gasTipCap.val with
  | error e =>
      simp only [opETX, hv]
      split_ifs <;> rfl
  | ok u =>
      simp only [opETX, hv]
      split_ifs <;> rfl

/-- The `StateDB` never reads the cache, and both semantics revert it alike. -/
theorem exec_state_eq_atomic (p : Exec) (s : StateDB) (cache cache' : List ExternalTx) :
    (exec c p s cache).1 = (execAtomic c p s cache').1 := by
  induction p generalizing s cache cache' with
  | skip => rfl
  | seq p q ihp ihq =>
      simp only [exec, execAtomic]
      rw [ihp s cache cache']
      exact ihq _ _ _
  | etx self caller a => exact opETX_state_cache self caller s cache cache' a
  | frame body failed ih =>
      cases failed with
      | true => rfl
      | false => exact ih s cache cache'

/-- Without a failed frame the interpreter is atomic. -/
theorem exec_eq_atomic_of_noFailure {p : Exec} (hp : p.NoFailure) (s : StateDB)
    (cache : List ExternalTx) : exec c p s cache = execAtomic c p s cache := by
  induction p generalizing s cache with
  | skip => rfl
  | seq p q ihp ihq =>
      simp only [exec, execAtomic]
      rw [ihp hp.1 s cache]
      exact ihq hp.2 _ _
  | etx self caller a => rfl
  | frame body failed ih =>
      rcases hp with ⟨rfl, hbody⟩
      simp only [exec, execAtomic, Bool.false_eq_true, if_false]
      exact ih hbody s cache

/-- Account 1 holds ten units. -/
def richState : StateDB := ⟨fun a => if a = 1 then 10 else 0, fun _ => 0⟩

/-- An ETX of value 1 to zone `[0, 1]`, fee cap 3 and gas limit 1: a debit of 4. -/
def plainCall : EtxCall := ⟨200, 1, 1, 0, 3, 0, true⟩

/-- A successful transaction whose inner frame emits an ETX and reverts: the
debit is undone, the ETX is returned. -/
theorem reverted_frame_keeps_etx :
    (transitionDb etxChain (.frame (.etx 1 1 plainCall) true) false richState).2.failed = false ∧
      (transitionDb etxChain (.frame (.etx 1 1 plainCall) true) false richState).2.etxs =
        [⟨1, 200, 1, 0, 3, 1, 0⟩] ∧
      (transitionDb etxChain (.frame (.etx 1 1 plainCall) true) false richState).1.balance 1 =
        richState.balance 1 ∧
      (execAtomic etxChain (.frame (.frame (.etx 1 1 plainCall) true) false) richState []).2 = [] := by
  refine ⟨rfl, ?_, ?_, rfl⟩ <;> decide

end GoQuai.Vm
