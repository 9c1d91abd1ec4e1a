import GoQuai.Common.Location

/-! # The full block header and its seal

`types.Header` carries one entry per context in `parentHash`, `manifestHash`,
`parentEntropy`, `parentDeltaS` and `number`. The proof of work is done on
`SealHash`, the hash of the RLP encoding of `sealData`, and `Hash()` is Blake3
of the nonce followed by the seal hash. `sealData` copies the context arrays
through the accessors, which index the array and panic when it is too short.
-/

namespace GoQuai.Types

/-- `common.Address`. -/
abbrev Address := ℕ

/-- `common.HierarchyDepth`. -/
def hierarchyDepth : ℕ := 3

/-- `types.Header` with every field it serialises; `*big.Int` fields are
non-negative here, as RLP requires. -/
structure Header where
  parentHash : List Hash
  uncleHash : Hash
  coinbase : Address
  root : Hash
  txHash : Hash
  etxHash : Hash
  etxRollupHash : Hash
  manifestHash : List Hash
  receiptHash : Hash
  difficulty : ℕ
  parentEntropy : List ℕ
  parentDeltaS : List ℕ
  number : List ℕ
  gasLimit : ℕ
  gasUsed : ℕ
  baseFee : ℕ
  location : Location
  time : ℕ
  extra : List UInt8
  mixHash : Hash
  nonce : ℕ
  deriving DecidableEq, Repr

/-- `types.sealData`. -/
structure SealData where
  parentHash : List Hash
  uncleHash : Hash
  coinbase : Address
  root : Hash
  txHash : Hash
  etxHash : Hash
  etxRollupHash : Hash
  manifestHash : List Hash
  receiptHash : Hash
  number : List ℕ
  gasLimit : ℕ
  gasUsed : ℕ
  baseFee : ℕ
  difficulty : ℕ
  location : Location
  time : ℕ
  extra : List UInt8
  nonce : ℕ
  deriving DecidableEq, Repr

/-- The per-context array copied by the loop of `SealHash`: entry `i` is the
accessor's `xs[i]`, which panics past the end. -/
def perCtx {α : Type} (xs : List α) : Option (List α) :=
  (List.range hierarchyDepth).mapM fun i => xs[i]?

namespace Header

/-- The value `SealHash` encodes; `Nonce` is left at its zero value. -/
def sealData (h : Header) : Option SealData := do
  let parentHash ← perCtx h.parentHash
  let manifestHash ← perCtx h.manifestHash
  let number ← perCtx h.number
  pure
    { parentHash, uncleHash := h.uncleHash, coinbase := h.coinbase, root := h.root,
      txHash := h.txHash, etxHash := h.etxHash, etxRollupHash := h.etxRollupHash,
      manifestHash, receiptHash := h.receiptHash, number, gasLimit := h.gasLimit,
      gasUsed := h.gasUsed, baseFee := h.baseFee, difficulty := h.difficulty,
      location := h.location, time := h.time, extra := h.extra, nonce := 0 }

/-- `Header.SealHash`, for the hash `rlpHash` of the RLP encoding. -/
def sealHash (rlpHash : SealData → Hash) (h : Header) : Option Hash :=
  h.sealData.map rlpHash

/-- `Header.Hash`: `blake3` of the nonce bytes followed by the seal hash. -/
def hash (rlpHash : SealData → Hash) (blake3 : ℕ → Hash → Hash) (h : Header) : Option Hash :=
  (h.sealHash rlpHash).map (blake3 h.nonce)

/-- The header with the fields `sealData` does not read cleared. -/
def unsealed (h : Header) : Header :=
  { h with parentEntropy := [], parentDeltaS := [], mixHash := 0, nonce := 0 }

/-- The context arrays `sealData` reads have one entry per context. -/
def WellSized (h : Header) : Prop :=
  h.parentHash.length = hierarchyDepth ∧ h.manifestHash.length = hierarchyDepth ∧
    h.number.length = hierarchyDepth

end Header

theorem perCtx_of_length {α : Type} {xs : List α} (h : xs.length = hierarchyDepth) :
    perCtx xs = some xs := by
  obtain ⟨a, b, c, rfl⟩ := List.length_eq_three.mp h
  rfl

namespace Header

theorem sealData_of_wellSized {h : Header} (w : h.WellSized) :
    h.sealData = some
      { parentHash := h.parentHash, uncleHash := h.uncleHash, coinbase := h.coinbase,
        root := h.root, txHash := h.txHash, etxHash := h.etxHash,
        etxRollupHash := h.etxRollupHash, manifestHash := h.manifestHash,
        receiptHash := h.receiptHash, number := h.number, gasLimit := h.gasLimit,
        gasUsed := h.gasUsed, baseFee := h.baseFee, difficulty := h.difficulty,
        location := h.location, time := h.time, extra := h.extra, nonce := 0 } := by
  obtain ⟨hp, hm, hn⟩ := w
  simp [sealData, perCtx_of_length hp, perCtx_of_length hm, perCtx_of_length hn]

/-- `sealData` reads no field that `unsealed` clears. -/
@[simp] theorem sealData_unsealed (h : Header) : h.unsealed.sealData = h.sealData := rfl

/-- The seal commits to exactly the fields other than the parent entropy, the
parent delta S, the mix hash and the nonce. -/
theorem sealData_eq_iff {h₁ h₂ : Header} (w₁ : h₁.WellSized) (w₂ : h₂.WellSized) :
    h₁.sealData = h₂.sealData ↔ h₁.unsealed = h₂.unsealed := by
  rw [sealData_of_wellSized w₁, sealData_of_wellSized w₂]
  cases h₁
  cases h₂
  simp only [Option.some.injEq, SealData.mk.injEq, unsealed, Header.mk.injEq, and_true]
  tauto

theorem sealHash_eq_of_unsealed {h₁ h₂ : Header} (rlpHash : SealData → Hash)
    (h : h₁.unsealed = h₂.unsealed) : h₁.sealHash rlpHash = h₂.sealHash rlpHash := by
  rw [sealHash, sealHash, ← sealData_unsealed, h, sealData_unsealed]

theorem hash_eq_of_unsealed {h₁ h₂ : Header} (rlpHash : SealData → Hash)
    (blake3 : ℕ → Hash → Hash) (h : h₁.unsealed = h₂.unsealed) (hn : h₁.nonce = h₂.nonce) :
    h₁.hash rlpHash blake3 = h₂.hash rlpHash blake3 := by
  rw [hash, hash, sealHash_eq_of_unsealed rlpHash h, hn]

/-- A zone header at number 1 of every context. -/
def sealedHeader : Header :=
  ⟨[1, 1, 1], 0, 0, 0, 0, 0, 0, [0, 0, 0], 0, 1, [0, 0, 0], [0, 0, 0], [1, 1, 1], 5000000, 0, 1,
    [0, 0], 10, [], 0, 7⟩

/-- `sealedHeader` with other parent entropies and parent delta S. -/
def reentropiedHeader : Header :=
  { sealedHeader with parentEntropy := [9, 9, 9], parentDeltaS := [9, 9, 9] }

theorem seal_omits_parent_entropy (rlpHash : SealData → Hash) (blake3 : ℕ → Hash → Hash) :
    sealedHeader.WellSized ∧ reentropiedHeader.WellSized ∧
      reentropiedHeader.parentEntropy ≠ sealedHeader.parentEntropy ∧
      reentropiedHeader.parentDeltaS ≠ sealedHeader.parentDeltaS ∧
      reentropiedHeader.sealData = sealedHeader.sealData ∧
      reentropiedHeader.hash rlpHash blake3 = sealedHeader.hash rlpHash blake3 :=
  ⟨⟨rfl, rfl, rfl⟩, ⟨rfl, rfl, rfl⟩, by decide, by decide, rfl, rfl⟩

end Header

end GoQuai.Types
