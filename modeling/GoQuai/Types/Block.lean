import GoQuai.Types.Header
import Mathlib.Data.Nat.Size

/-! # Sanity checks of headers and blocks

`Header.SanityCheck` bounds the lengths of the context arrays and the sizes of
the unbounded fields of a header received from the network. `Block.SanityCheck`
checks the block's own header and nothing else, so the uncles a block carries
reach `Hash`, `SealHash` and `CopyHeader` unchecked.

`*big.Int` fields are natural numbers here, so the `nil` checks on
`difficulty` and `baseFee` cannot fail.
-/

namespace GoQuai.Types

namespace Header

/-- The loop of `SanityCheck` over the context numbers: each must fit in a
`uint64`. -/
def checkNumbers (number : List ℕ) : Except String Unit :=
  (List.range hierarchyDepth).forM fun i =>
    if number.getD i 0 < 2 ^ 64 then .ok ()
    else .error ("too large block number[" ++ toString i ++ "]: bitlen " ++
      toString (number.getD i 0).size)

/-- `Header.SanityCheck`. -/
def sanityCheck (h : Header) : Except String Unit :=
  if h.parentHash.length ≠ hierarchyDepth then .error "field cannot be `nil`: parentHash"
  else if h.manifestHash.length ≠ hierarchyDepth then .error "field cannot be `nil`: manifestHash"
  else if h.number.length ≠ hierarchyDepth then .error "field cannot be `nil`: number"
  else if h.parentEntropy.length ≠ hierarchyDepth then
    .error "field cannot be `nil`: parentEntropy"
  else if h.parentDeltaS.length ≠ hierarchyDepth then .error "field cannot be `nil`: parentDeltaS"
  else if h.baseFee.size > 256 then .error ("too large base fee: bitlen " ++ toString h.baseFee.size)
  else do
    checkNumbers h.number
    if h.difficulty.size > 80 then
      .error ("too large block difficulty: bitlen " ++ toString h.difficulty.size)
    else if h.extra.length > 100 * 1024 then
      .error ("too large block extradata: size " ++ toString h.extra.length)
    else .ok ()

/-- A header whose parent hashes are missing fails the first check, and its
seal data cannot be read. -/
theorem sanityCheck_parentHash {h : Header} (hp : h.parentHash = []) :
    h.sanityCheck = .error "field cannot be `nil`: parentHash" ∧ h.sealData = none := by
  refine ⟨by simp [sanityCheck, hp, hierarchyDepth], ?_⟩
  simp [sealData, perCtx, hp, hierarchyDepth, List.range_succ]

end Header

/-- The fields of `types.Block` its sanity check and its uncle hash read. -/
structure Block where
  header : Header
  uncles : List Header

/-- `Block.SanityCheck`. -/
def Block.sanityCheck (b : Block) : Except String Unit := b.header.sanityCheck

/-- `NewBlockPacket.sanityCheck`, the only check `handleNewBlock` makes before
it hashes the uncles and hands the block on. -/
def newBlockPacketSanityCheck (b : Block) : Except String Unit := b.sanityCheck

/-- A block whose header is `sealedHeader` and whose one uncle has no parent
hashes. -/
def unsizedUncleBlock : Block :=
  ⟨Header.sealedHeader, [{ Header.sealedHeader with parentHash := [] }]⟩

theorem block_sanity_check_skips_uncles :
    newBlockPacketSanityCheck unsizedUncleBlock = .ok () ∧
      ∃ u ∈ unsizedUncleBlock.uncles,
        u.sanityCheck = .error "field cannot be `nil`: parentHash" ∧ u.sealData = none := by
  refine ⟨rfl, _, List.mem_singleton_self _, Header.sanityCheck_parentHash rfl⟩

end GoQuai.Types
