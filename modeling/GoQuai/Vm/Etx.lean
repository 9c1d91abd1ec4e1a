import GoQuai.Types.Header
import GoQuai.Lib.Wrap

/-! # Emitting external transactions

A contract emits an ETX with the `ETX` opcode, and an internal-to-external
transaction emits one through `EVM.CreateETX`. Both debit the sender by the
value plus `(tip + fee cap) * gas limit` and append the ETX to the EVM's
`ETXCache`. `opETX` computes the debit on 256-bit stack words, which wrap;
`CreateETX` on big integers, after casting the `uint64` gas limit to `int64`.
-/

namespace GoQuai.Vm

open GoQuai.Types (Address)

/-- A 256-bit stack word; `uint256` addition and multiplication wrap as `Fin`'s do. -/
abbrev Word := Fin (2 ^ 256)

-- one named instance, so that every word literal refers to it
instance instNeZeroWordSize : NeZero (2 ^ 256 : ℕ) := ⟨pow_ne_zero _ two_ne_zero⟩

/-- `params.ETXGas`. -/
def etxGas : ℕ := 21000

/-- `common.NumRegionsInPrime`. -/
def numRegionsInPrime : ℕ := 3

/-- `common.NumZonesInRegion`. -/
def numZonesInRegion : ℕ := 3

/-- The fields of `types.ExternalTx` that carry value and gas. -/
structure ExternalTx where
  value : ℕ
  toAddr : Address
  sender : Address
  gasTipCap : ℕ
  gasFeeCap : ℕ
  gas : ℕ
  nonce : ℕ
  deriving DecidableEq, Repr

/-- The accounts of a `StateDB`: balances are big integers. -/
structure StateDB where
  balance : Address → ℤ
  nonce : Address → ℕ

namespace StateDB

/-- `StateDB.SubBalance`. -/
def subBalance (s : StateDB) (a : Address) (amount : ℤ) : StateDB :=
  { s with balance := Function.update s.balance a (s.balance a - amount) }

/-- `StateDB.SetNonce`. -/
def setNonce (s : StateDB) (a : Address) (n : ℕ) : StateDB :=
  { s with nonce := Function.update s.nonce a n }

end StateDB

/-- What emission reads of the chain: `IsInChainScope`, `Address.Location`,
the block's base fee and the transaction's miner tip. -/
structure Chain where
  inChainScope : Address → Bool
  location : Address → Location
  baseFee : ℕ
  txGasTip : ℕ

variable (c : Chain)

/-- `core.CanTransfer`: an external address cannot pay. -/
def canTransfer (s : StateDB) (a : Address) (amount : ℤ) : Bool :=
  c.inChainScope a && decide (amount ≤ s.balance a)

/-- `calcEtxFeeMultiplier`. -/
def calcEtxFeeMultiplier (fromAddr toAddr : Address) : ℕ :=
  if ((c.location fromAddr).commonDom (c.location toAddr)).context = .prime then
    numZonesInRegion * numRegionsInPrime
  else numZonesInRegion

/-- `EVM.ValidateETXGasPriceAndTip`. -/
def validateETXGasPriceAndTip (fromAddr toAddr : Address) (etxGasPrice etxGasTip : ℕ) :
    Except String Unit :=
  let feeMul := calcEtxFeeMultiplier c fromAddr toAddr
  if 2 ^ 256 ≤ etxGasPrice then .error "max fee per gas higher than 2^256-1"
  else if 2 ^ 256 ≤ etxGasTip then .error "max priority fee per gas higher than 2^256-1"
  else if etxGasPrice < etxGasTip then
    .error "max priority fee per gas higher than max fee per gas"
  else if etxGasPrice < c.baseFee * feeMul then
    .error "etx max fee per gas less than block base fee multiple"
  else if etxGasTip < c.txGasTip * feeMul then
    .error "etx miner tip cap less than tx miner tip cap multiple"
  else .ok ()

/-- The stack operands of `opETX` after `temp`, and whether the access list
in memory decodes. -/
structure EtxCall where
  addr : Word
  value : Word
  etxGasLimit : Word
  gasTipCap : Word
  gasFeeCap : Word
  accessListSize : Word
  accessListDecodes : Bool

/-- The state, the `ETXCache` and the word pushed on the stack after an
instruction (`none` when it returns without pushing). -/
structure EtxOutcome where
  state : StateDB
  cache : List ExternalTx
  pushed : Option Word

/-- `common.Bytes20ToAddress(addr.Bytes20())`: the low 20 bytes of a word. -/
def bytes20ToAddress (w : Word) : Address := w.val % 2 ^ 160

/-- `opETX`, run by the contract `self` called by `caller`. -/
def opETX (self caller : Address) (s : StateDB) (cache : List ExternalTx) (a : EtxCall) :
    EtxOutcome :=
  let toAddr := bytes20ToAddress a.addr
  if c.inChainScope toAddr then ⟨s, cache, some 0⟩
  -- `sender.InternalAddress()` fails: the opcode returns without a push
  else if !c.inChainScope self then ⟨s, cache, none⟩
  else
    match validateETXGasPriceAndTip c caller toAddr a.gasFeeCap.val a.gasTipCap.val with
    | .error _ => ⟨s, cache, some 0⟩
    | .ok () =>
        let fee := (a.gasTipCap + a.gasFeeCap) * a.etxGasLimit
        let total := a.value + fee
        if total = 0 ∨ canTransfer c s self total.val = false then ⟨s, cache, some 0⟩
        else
          let s := s.subBalance self total.val
          -- the access list is decoded after the debit
          if a.accessListDecodes = false ∧ a.accessListSize ≠ 0 then ⟨s, cache, some 0⟩
          else
            let nonce := s.nonce self
            let etx : ExternalTx :=
              ⟨a.value.val, toAddr, self, a.gasTipCap.val, a.gasFeeCap.val,
                a.etxGasLimit.val % 2 ^ 64, nonce⟩
            ⟨s.setNonce self (nonce + 1), cache ++ [etx], some 1⟩

/-- `EVM.CreateETX`: the new state, the `ETXCache` and the gas left. -/
def createETX (s : StateDB) (cache : List ExternalTx) (toAddr fromAddr : Address)
    (etxGasLimit etxGasPrice etxGasTip gas value : ℕ) :
    Except String (StateDB × List ExternalTx × ℕ) :=
  if c.inChainScope toAddr then .error "is in chain scope, but CreateETX was called"
  else if gas < etxGas then .error "CreateETX error: is not sufficient gas"
  else if !c.inChainScope fromAddr then .error "CreateETX error: invalid scope"
  else
    match validateETXGasPriceAndTip c fromAddr toAddr etxGasPrice etxGasTip with
    | .error e => .error e
    | .ok () =>
        let fee : ℤ := ((etxGasTip + etxGasPrice : ℕ) : ℤ) * Wrap.signed 64 etxGasLimit
        let total : ℤ := value + fee
        if total = 0 ∨ canTransfer c s fromAddr total = false then .error "CreateETX: cannot transfer"
        else
          let s := s.subBalance fromAddr total
          let etx : ExternalTx :=
            ⟨value, toAddr, fromAddr, etxGasTip, etxGasPrice, etxGasLimit, s.nonce fromAddr⟩
          .ok (s, cache ++ [etx], gas - etxGas)

variable {c}

/-- The checks before the debit pass only when the sender's balance covers the total. -/
theorem le_balance_of_pays {s : StateDB} {a : Address} {total : Word}
    (hpay : ¬(total = 0 ∨ canTransfer c s a total.val = false)) : (total.val : ℤ) ≤ s.balance a := by
  simp only [not_or, canTransfer, Bool.not_eq_false, Bool.and_eq_true, decide_eq_true_eq] at hpay
  exact hpay.2.2

/-- A zone chain of addresses below 100 with base fee 1 and no miner tip. -/
def etxChain : Chain :=
  ⟨fun a => decide (a < 100), fun a => if a < 100 then [0, 0] else [0, 1], 1, 0⟩

/-- Account 1 holds one unit. -/
def fundedState : StateDB := ⟨fun a => if a = 1 then 1 else 0, fun _ => 0⟩

/-- An ETX of value `2^256 - 2` to zone `[0, 1]`, with fee cap 3 and gas limit 1. -/
def wrappingCall : EtxCall := ⟨200, ⟨2 ^ 256 - 2, by decide⟩, 1, 0, 3, 0, true⟩

theorem etx_emission_creates_value :
    fundedState.balance 1 = 1 ∧
      (opETX etxChain 1 1 fundedState [] wrappingCall).pushed = some 1 ∧
      (opETX etxChain 1 1 fundedState [] wrappingCall).state.balance 1 = 0 ∧
      (opETX etxChain 1 1 fundedState [] wrappingCall).cache =
        [⟨2 ^ 256 - 2, 200, 1, 0, 3, 1, 0⟩] ∧
      (createETX etxChain fundedState [] 200 1 (2 ^ 64 - 1) 3 0 21000 0).toOption.map
          (fun r => (r.1.balance 1, r.2.1)) =
        some (4, [⟨0, 200, 1, 0, 3, 2 ^ 64 - 1, 0⟩]) := by
  refine ⟨rfl, ?_, ?_, ?_, ?_⟩ <;> decide

end GoQuai.Vm
