import GoQuai.Types.Header
import Mathlib.Tactic.Positivity

/-! # The order of a block from its proof of work

`CalcOrder` of both engines checks the seal and then compares the intrinsic
entropy of the proof-of-work hash with thresholds derived from the zone
difficulty threshold `IntrinsicLogS(BytesToHash(2^256 / difficulty))`. The two
engines differ only in the seal: Blake3pow hashes the header, Progpow runs
`ComputePowLight` and checks its mix digest against the header's.

`math/big` panics on a zero divisor and `mathutil.BinaryLog` on a
non-positive argument; a panic is `none` here. `BinaryLog` and the Progpow
light hash are parameters.
-/

namespace GoQuai.Consensus

open GoQuai.Types

/-- `big2e256`. -/
def big2e256 : ℕ := 2 ^ 256

/-- `mantBits`. -/
def mantBits : ℕ := 64

/-- `params.TimeFactor`. -/
def timeFactor : ℤ := 7

/-- `new(big.Int).Div(x, y)`. -/
def bigDiv (x y : ℕ) : Option ℕ := if y = 0 then none else some (x / y)

/-- `common.BytesToHash(x.Bytes())`, read back by `SetBytes`: the big-endian
bytes of `x` keep their last 32. -/
def bytesToHash (x : ℕ) : Hash := x % 2 ^ 256

/-- The context number `NumberU64(ctx)`, which indexes `number`. -/
def numberAt (h : Types.Header) (ctx : Ctx) : Option ℕ := h.number[ctx.toNat]?

section Thresholds

variable (binaryLog : ℕ → ℕ → ℤ × ℤ)

/-- `mathutil.BinaryLog`: the characteristic and the mantissa. -/
def checkedBinaryLog (n : ℤ) (mantissaBits : ℕ) : Option (ℤ × ℤ) :=
  if n ≤ 0 then none else some (binaryLog n.toNat mantissaBits)

/-- `IntrinsicLogS`, the same in both engines. -/
def intrinsicLogS (powHash : Hash) : Option ℤ := do
  let d ← bigDiv big2e256 powHash
  let (c, m) ← checkedBinaryLog binaryLog d mantBits
  pure (c * 2 ^ mantBits + m)

/-- `CalcOrder` after the seal and `intrinsicS`, the same in both engines. -/
def orderOfLogS (h : Types.Header) (intrinsicS : ℤ) : Option (ℤ × Ctx) := do
  let target ← bigDiv big2e256 h.difficulty
  let zoneThresholdS ← intrinsicLogS binaryLog (bytesToHash target)
  let multiple := timeFactor * hierarchyDepth
  let primeEntropyThreshold := multiple * multiple * zoneThresholdS
  let primeBlockThreshold := primeEntropyThreshold.tdiv 2
  let primeEntropyThreshold := primeEntropyThreshold - primeBlockThreshold
  let (primeAdder, _) ← checkedBinaryLog binaryLog primeBlockThreshold 8
  let primeBlockEntropyThreshold := zoneThresholdS + primeAdder
  let regionDeltaS : ℕ ← h.parentDeltaS[1]?
  let zoneDeltaS : ℕ ← h.parentDeltaS[2]?
  if intrinsicS > primeBlockEntropyThreshold ∧
      (regionDeltaS + zoneDeltaS : ℤ) + intrinsicS > primeEntropyThreshold then
    pure (intrinsicS, .prime)
  else
    let regionEntropyThreshold := multiple * zoneThresholdS
    let regionBlockThreshold := regionEntropyThreshold.tdiv 2
    let regionEntropyThreshold := regionEntropyThreshold - regionBlockThreshold
    let (regionAdder, _) ← checkedBinaryLog binaryLog regionBlockThreshold 8
    let regionBlockEntropyThreshold := zoneThresholdS + regionAdder
    if intrinsicS > regionBlockEntropyThreshold ∧
        (zoneDeltaS : ℤ) + intrinsicS > regionEntropyThreshold then
      pure (intrinsicS, .region)
    else pure (intrinsicS, .zone)

/-- What `mathutil.BinaryLog` documents for a positive argument: the
characteristic is the integer part of the binary logarithm and the mantissa is
not negative. -/
def BinaryLogSpec : Prop :=
  ∀ n k, 0 < n → (binaryLog n k).1 = n.log2 ∧ 0 ≤ (binaryLog n k).2

variable {binaryLog}

@[simp] theorem bigDiv_zero (x : ℕ) : bigDiv x 0 = none := rfl

theorem bigDiv_of_pos (x : ℕ) {y : ℕ} (hy : 0 < y) : bigDiv x y = some (x / y) := by
  simp [bigDiv, Nat.pos_iff_ne_zero.mp hy]

theorem checkedBinaryLog_of_pos {n : ℤ} (hn : 0 < n) (k : ℕ) :
    checkedBinaryLog binaryLog n k = some (binaryLog n.toNat k) := by
  simp [checkedBinaryLog, not_le.mpr hn]

theorem checkedBinaryLog_natCast {n : ℕ} (hn : 0 < n) (k : ℕ) :
    checkedBinaryLog binaryLog n k = some (binaryLog n k) := by
  rw [checkedBinaryLog_of_pos (Int.natCast_pos.mpr hn), Int.toNat_natCast]

@[simp] theorem intrinsicLogS_zero : intrinsicLogS binaryLog 0 = none := rfl

/-- The target `2^256` of difficulty 1 has 33 bytes, and `BytesToHash` crops
it to the zero hash. -/
@[simp] theorem bytesToHash_big2e256 : bytesToHash big2e256 = 0 := by
  simp [bytesToHash, big2e256]

/-- At difficulty 1 the zone threshold divides by the zero hash. -/
theorem orderOfLogS_difficulty_one {h : Types.Header} (hd : h.difficulty = 1) (intrinsicS : ℤ) :
    orderOfLogS binaryLog h intrinsicS = none := by
  simp [orderOfLogS, hd, bigDiv_of_pos]

theorem intrinsicLogS_eq (hb : BinaryLogSpec binaryLog) {x : Hash} (hx : 0 < x)
    (hx' : x ≤ big2e256) :
    ∃ m : ℤ, 0 ≤ m ∧ intrinsicLogS binaryLog x = some ((big2e256 / x).log2 * 2 ^ mantBits + m) := by
  have hd : 0 < big2e256 / x := Nat.div_pos hx' hx
  obtain ⟨hc, hm⟩ := hb (big2e256 / x) mantBits hd
  refine ⟨(binaryLog (big2e256 / x) mantBits).2, hm, ?_⟩
  rw [intrinsicLogS, bigDiv_of_pos _ hx]
  simp [-Int.natCast_ediv, checkedBinaryLog_natCast hd, hc]

/-- From difficulty 2 on, the zone threshold is at least one unit of
characteristic. -/
theorem zoneThresholdS_ge (hb : BinaryLogSpec binaryLog) {d : ℕ} (hd : 2 ≤ d)
    (hd' : d ≤ big2e256) :
    ∃ z, intrinsicLogS binaryLog (bytesToHash (big2e256 / d)) = some z ∧ 2 ^ mantBits ≤ z := by
  have htarget : 0 < big2e256 / d := Nat.div_pos hd' (by omega)
  have hhalf : 2 * (big2e256 / d) ≤ big2e256 := by
    calc 2 * (big2e256 / d) ≤ d * (big2e256 / d) := Nat.mul_le_mul_right _ hd
      _ ≤ big2e256 := Nat.mul_div_le big2e256 d
  have hfit : bytesToHash (big2e256 / d) = big2e256 / d := by
    apply Nat.mod_eq_of_lt
    simp only [big2e256] at hhalf ⊢
    omega
  have hratio : 2 ≤ big2e256 / (big2e256 / d) :=
    (Nat.le_div_iff_mul_le htarget).mpr hhalf
  have hlog : 1 ≤ (big2e256 / (big2e256 / d)).log2 :=
    (Nat.le_log2 (by omega)).mpr hratio
  obtain ⟨m, hm, hz⟩ := intrinsicLogS_eq hb htarget (Nat.div_le_self _ _)
  refine ⟨_, by rw [hfit, hz], ?_⟩
  have hone : (1 : ℤ) ≤ (big2e256 / (big2e256 / d)).log2 := by exact_mod_cast hlog
  calc (2 : ℤ) ^ mantBits = 1 * 2 ^ mantBits := (one_mul _).symm
    _ ≤ (big2e256 / (big2e256 / d)).log2 * 2 ^ mantBits :=
      mul_le_mul_of_nonneg_right hone (by positivity)
    _ ≤ _ := le_add_of_nonneg_right hm

/-- A threshold made of a positive multiple of such a zone threshold halves to a
positive number. -/
theorem tdiv_two_pos {k z : ℤ} (hk : 1 ≤ k) (hz : 2 ^ mantBits ≤ z) : 0 < (k * z).tdiv 2 := by
  have h2 : (2 : ℤ) ≤ 2 ^ mantBits :=
    calc (2 : ℤ) = 2 ^ 1 := (pow_one 2).symm
      _ ≤ 2 ^ mantBits := pow_le_pow_right₀ (by norm_num) (by simp [mantBits])
  have hkz : z ≤ k * z := le_mul_of_one_le_left (by omega) hk
  rw [Int.tdiv_eq_ediv_of_nonneg (by omega)]
  omega

/-- On a difficulty of at least 2 and a header with its parent delta S per
context, the thresholds never reach `BinaryLog` with a non-positive argument. -/
theorem orderOfLogS_isSome (hb : BinaryLogSpec binaryLog) {h : Types.Header} (hd : 2 ≤ h.difficulty)
    (hd' : h.difficulty ≤ big2e256) (hlen : hierarchyDepth ≤ h.parentDeltaS.length)
    (intrinsicS : ℤ) : ∃ r, orderOfLogS binaryLog h intrinsicS = some r := by
  obtain ⟨z, hz, hz64⟩ := zoneThresholdS_ge hb hd hd'
  have hprime := tdiv_two_pos (k := timeFactor * hierarchyDepth * (timeFactor * hierarchyDepth))
    (by simp [timeFactor, hierarchyDepth]) hz64
  have hregion := tdiv_two_pos (k := timeFactor * hierarchyDepth)
    (by simp [timeFactor, hierarchyDepth]) hz64
  have hl : 3 ≤ h.parentDeltaS.length := by simpa [hierarchyDepth] using hlen
  have h1 : h.parentDeltaS[1]? = some h.parentDeltaS[1] := List.getElem?_eq_getElem _
  have h2 : h.parentDeltaS[2]? = some h.parentDeltaS[2] := List.getElem?_eq_getElem _
  simp only [orderOfLogS, bigDiv_of_pos _ (by omega : 0 < h.difficulty), Option.bind_eq_bind,
    Option.bind_some, hz, checkedBinaryLog_of_pos hprime, checkedBinaryLog_of_pos hregion, h1, h2]
  split_ifs <;> simp

end Thresholds

namespace Blake3pow

variable (binaryLog : ℕ → ℕ → ℤ × ℤ) (rlpHash : SealData → Hash) (blake3 : ℕ → Hash → Hash)

/-- `Blake3pow.verifySeal` outside the fake modes. -/
def verifySeal (h : Types.Header) : Option (Except String Unit) := do
  if h.difficulty = 0 then return .error "non-positive difficulty"
  let hash ← h.hash rlpHash blake3
  if hash > big2e256 / h.difficulty then return .error "invalid proof-of-work"
  return .ok ()

/-- `Blake3pow.CalcOrder` on a node in context `nodeCtx`. -/
def calcOrder (nodeCtx : Ctx) (h : Types.Header) : Option (Except String (ℤ × Ctx)) := do
  let number ← numberAt h nodeCtx
  if number = 0 then return .ok (0, .prime)
  match ← verifySeal rlpHash blake3 h with
  | .error e => return .error e
  | .ok () =>
      let hash ← h.hash rlpHash blake3
      let intrinsicS ← intrinsicLogS binaryLog hash
      return .ok (← orderOfLogS binaryLog h intrinsicS)

variable {binaryLog rlpHash blake3}

theorem hash_of_verifySeal {h : Types.Header} {r : Except String Unit}
    (hseal : verifySeal rlpHash blake3 h = some r) (hd : h.difficulty ≠ 0) :
    ∃ hash, h.hash rlpHash blake3 = some hash := by
  cases hh : h.hash rlpHash blake3 with
  | none => simp [verifySeal, hd, hh] at hseal
  | some hash => exact ⟨hash, rfl⟩

/-- A difficulty-1 header that passes the seal check panics in `CalcOrder`. -/
theorem calcOrder_difficulty_one {nodeCtx : Ctx} {h : Types.Header} (hd : h.difficulty = 1)
    (hn : numberAt h nodeCtx ≠ some 0) (hseal : verifySeal rlpHash blake3 h = some (.ok ())) :
    calcOrder binaryLog rlpHash blake3 nodeCtx h = none := by
  obtain ⟨hash, hh⟩ := hash_of_verifySeal hseal (by omega)
  cases hnum : numberAt h nodeCtx with
  | none => simp [calcOrder, hnum]
  | some n =>
      have hn0 : n ≠ 0 := fun h0 => hn (by rw [hnum, h0])
      simp [calcOrder, hnum, hn0, hseal, hh, @orderOfLogS_difficulty_one binaryLog _ hd]

/-- From difficulty 2 on, a header whose proof-of-work hash is not zero gets an
order or a seal error, never a panic. -/
theorem calcOrder_total (hb : BinaryLogSpec binaryLog) {nodeCtx : Ctx} {h : Types.Header}
    (hd : 2 ≤ h.difficulty) (hd' : h.difficulty ≤ big2e256)
    (hlen : hierarchyDepth ≤ h.parentDeltaS.length) (hnum : (numberAt h nodeCtx).isSome)
    {hash : Hash} (hh : h.hash rlpHash blake3 = some hash) (hpos : 0 < hash) :
    ∃ r, calcOrder binaryLog rlpHash blake3 nodeCtx h = some r := by
  obtain ⟨n, hn⟩ := Option.isSome_iff_exists.mp hnum
  by_cases hn0 : n = 0
  · simp [calcOrder, hn, hn0]
  by_cases hpow : hash > big2e256 / h.difficulty
  · simp [calcOrder, verifySeal, hn, hn0, hh, hpow, show h.difficulty ≠ 0 by omega]
  -- the hash is below the target, so `IntrinsicLogS` divides by a positive number
  have hfit : hash ≤ big2e256 := le_trans (not_lt.mp hpow) (Nat.div_le_self _ _)
  obtain ⟨m, -, hs⟩ := intrinsicLogS_eq hb hpos hfit
  obtain ⟨r, hr⟩ := orderOfLogS_isSome hb hd hd' hlen
    ((big2e256 / hash).log2 * 2 ^ mantBits + m)
  simp [calcOrder, verifySeal, hn, hn0, hh, hpow, show h.difficulty ≠ 0 by omega, hs, hr]

end Blake3pow

namespace Progpow

/-- `epochLength`. -/
def epochLength : ℕ := 2147483647

variable (binaryLog : ℕ → ℕ → ℤ × ℤ) (rlpHash : SealData → Hash)
  (light : ℕ → ℕ → Hash → ℕ → ℕ → ℕ → Hash × Hash) (sizeOfEpoch : ℕ → ℕ)

/-- `datasetSize`: the size of the dataset of the block's epoch. -/
def datasetSize (block : ℕ) : ℕ := sizeOfEpoch (block / epochLength)

/-- `Progpow.ComputePowLight` on a node in context `nodeCtx`: the dataset size
and the verification cache are those of the epoch of the node's context number,
the cDag that of the zone number. `light` takes the size, the cache's epoch, the
seal hash, the nonce, the block number and the cDag's epoch, and returns the mix
digest and the result. -/
def computePowLight (nodeCtx : Ctx) (h : Types.Header) : Option (Hash × Hash) := do
  let number ← numberAt h nodeCtx
  let sealHash ← h.sealHash rlpHash
  let zoneNumber ← numberAt h .zone
  pure (light (datasetSize sizeOfEpoch number) (number / epochLength) sealHash h.nonce zoneNumber
    (zoneNumber / epochLength))

/-- `Progpow.verifySeal` outside the fake and shared modes. -/
def verifySeal (nodeCtx : Ctx) (h : Types.Header) : Option (Except String Hash) := do
  if h.difficulty = 0 then return .error "non-positive difficulty"
  let (mixHash, powHash) ← computePowLight rlpHash light sizeOfEpoch nodeCtx h
  if h.mixHash ≠ mixHash then return .error "invalid mixHash"
  if powHash > big2e256 / h.difficulty then return .error "invalid proof-of-work"
  return .ok powHash

/-- `Progpow.CalcOrder` on a node in context `nodeCtx`. -/
def calcOrder (nodeCtx : Ctx) (h : Types.Header) : Option (Except String (ℤ × Ctx)) := do
  let number ← numberAt h nodeCtx
  if number = 0 then return .ok (0, .prime)
  match ← verifySeal rlpHash light sizeOfEpoch nodeCtx h with
  | .error e => return .error e
  | .ok powHash =>
      let intrinsicS ← intrinsicLogS binaryLog powHash
      return .ok (← orderOfLogS binaryLog h intrinsicS)

variable {binaryLog rlpHash light sizeOfEpoch}

/-- A difficulty-1 header that passes the seal check panics in `CalcOrder`. -/
theorem calcOrder_difficulty_one {nodeCtx : Ctx} {h : Types.Header} (hd : h.difficulty = 1)
    (hn : numberAt h nodeCtx ≠ some 0) {powHash : Hash}
    (hseal : verifySeal rlpHash light sizeOfEpoch nodeCtx h = some (.ok powHash)) :
    calcOrder binaryLog rlpHash light sizeOfEpoch nodeCtx h = none := by
  cases hnum : numberAt h nodeCtx with
  | none => simp [calcOrder, hnum]
  | some n =>
      have hn0 : n ≠ 0 := fun h0 => hn (by rw [hnum, h0])
      simp [calcOrder, hnum, hn0, hseal, @orderOfLogS_difficulty_one binaryLog _ hd]

/-- From difficulty 2 on, a header whose light proof-of-work result is not zero
gets an order or a seal error, never a panic. -/
theorem calcOrder_total (hb : BinaryLogSpec binaryLog) {nodeCtx : Ctx} {h : Types.Header}
    (hd : 2 ≤ h.difficulty) (hd' : h.difficulty ≤ big2e256)
    (hlen : hierarchyDepth ≤ h.parentDeltaS.length) (hnum : (numberAt h nodeCtx).isSome)
    {mixHash powHash : Hash}
    (hpow : computePowLight rlpHash light sizeOfEpoch nodeCtx h = some (mixHash, powHash))
    (hpos : 0 < powHash) :
    ∃ r, calcOrder binaryLog rlpHash light sizeOfEpoch nodeCtx h = some r := by
  obtain ⟨n, hn⟩ := Option.isSome_iff_exists.mp hnum
  by_cases hn0 : n = 0
  · simp [calcOrder, hn, hn0]
  have hd0 : h.difficulty ≠ 0 := by omega
  by_cases hmix : h.mixHash = mixHash
  swap
  · simp [calcOrder, verifySeal, hn, hn0, hd0, hpow, hmix]
  by_cases hlt : powHash > big2e256 / h.difficulty
  · simp [calcOrder, verifySeal, hn, hn0, hd0, hpow, hmix, hlt]
  -- the result is below the target, so `IntrinsicLogS` divides by a positive number
  have hfit : powHash ≤ big2e256 := le_trans (not_lt.mp hlt) (Nat.div_le_self _ _)
  obtain ⟨m, -, hs⟩ := intrinsicLogS_eq hb hpos hfit
  obtain ⟨r, hr⟩ := orderOfLogS_isSome hb hd hd' hlen
    ((big2e256 / powHash).log2 * 2 ^ mantBits + m)
  simp [calcOrder, verifySeal, hn, hn0, hd0, hpow, hmix, hlt, hs, hr]

/-- Nodes whose context numbers of a header fall in one epoch compute the same
light proof of work for it. -/
theorem computePowLight_eq_of_epoch {ctx ctx' : Ctx} {h : Types.Header} {n n' : ℕ}
    (hn : numberAt h ctx = some n) (hn' : numberAt h ctx' = some n')
    (he : n / epochLength = n' / epochLength) :
    computePowLight rlpHash light sizeOfEpoch ctx h =
      computePowLight rlpHash light sizeOfEpoch ctx' h := by
  simp [computePowLight, hn, hn', datasetSize, he]

theorem verifySeal_eq_of_epoch {ctx ctx' : Ctx} {h : Types.Header} {n n' : ℕ}
    (hn : numberAt h ctx = some n) (hn' : numberAt h ctx' = some n')
    (he : n / epochLength = n' / epochLength) :
    verifySeal rlpHash light sizeOfEpoch ctx h = verifySeal rlpHash light sizeOfEpoch ctx' h := by
  rw [verifySeal, verifySeal, computePowLight_eq_of_epoch hn hn' he]

/-- A header numbered 1, 2 and 3 in the three contexts. -/
def steppedHeader : Types.Header := { Types.Header.sealedHeader with number := [1, 2, 3] }

end Progpow

/-- From difficulty 2 on, the `CalcOrder` of either engine never panics on a
header whose proof-of-work value is positive: it returns an order or a seal
error. -/
theorem calc_order_total_from_difficulty_two (binaryLog : ℕ → ℕ → ℤ × ℤ) (hb : BinaryLogSpec binaryLog)
    (rlpHash : SealData → Hash) (blake3 : ℕ → Hash → Hash)
    (light : ℕ → ℕ → Hash → ℕ → ℕ → ℕ → Hash × Hash) (sizeOfEpoch : ℕ → ℕ) (nodeCtx : Ctx)
    (h : Types.Header) (hd : 2 ≤ h.difficulty) (hd' : h.difficulty ≤ big2e256)
    (hlen : hierarchyDepth ≤ h.parentDeltaS.length) (hnum : (numberAt h nodeCtx).isSome) :
    (∀ hash, h.hash rlpHash blake3 = some hash → 0 < hash →
        ∃ r, Blake3pow.calcOrder binaryLog rlpHash blake3 nodeCtx h = some r) ∧
      ∀ mixHash powHash, Progpow.computePowLight rlpHash light sizeOfEpoch nodeCtx h = some (mixHash, powHash) →
        0 < powHash → ∃ r, Progpow.calcOrder binaryLog rlpHash light sizeOfEpoch nodeCtx h = some r :=
  ⟨fun _ hh hpos => Blake3pow.calcOrder_total hb hd hd' hlen hnum hh hpos,
    fun _ _ hpow hpos => Progpow.calcOrder_total hb hd hd' hlen hnum hpow hpos⟩

/-- A zone header of difficulty 2 whose hashes are all 5. -/
def difficultyTwoHeader : Types.Header := { Types.Header.sealedHeader with difficulty := 2 }

theorem calc_order_total_from_difficulty_two_sealed :
    (∀ hash, difficultyTwoHeader.hash (fun _ => 5) (fun _ _ => 5) = some hash → 0 < hash →
        ∃ r, Blake3pow.calcOrder (fun n _ => ((n.log2 : ℤ), 0)) (fun _ => 5) (fun _ _ => 5) .zone
          difficultyTwoHeader = some r) ∧
      ∀ mixHash powHash, Progpow.computePowLight (fun _ => 5) (fun _ _ _ _ _ _ => (0, 5)) (fun _ => 0) .zone
          difficultyTwoHeader = some (mixHash, powHash) → 0 < powHash →
        ∃ r, Progpow.calcOrder (fun n _ => ((n.log2 : ℤ), 0)) (fun _ => 5) (fun _ _ _ _ _ _ => (0, 5))
          (fun _ => 0) .zone difficultyTwoHeader = some r :=
  calc_order_total_from_difficulty_two _ (fun _ _ _ => ⟨rfl, le_rfl⟩) _ _ _ _ .zone difficultyTwoHeader
    (by decide) (by decide) (by decide) rfl

/-- Every header of difficulty 1 that passes the seal check of either engine
makes its `CalcOrder` panic: the zone threshold divides `2^256` by the cropped
target, which is zero. -/
theorem calc_order_panics_at_difficulty_one (binaryLog : ℕ → ℕ → ℤ × ℤ)
    (rlpHash : SealData → Hash) (blake3 : ℕ → Hash → Hash)
    (light : ℕ → ℕ → Hash → ℕ → ℕ → ℕ → Hash × Hash) (sizeOfEpoch : ℕ → ℕ) (nodeCtx : Ctx)
    (h : Types.Header) (hd : h.difficulty = 1) (hn : numberAt h nodeCtx ≠ some 0) :
    (Blake3pow.verifySeal rlpHash blake3 h = some (.ok ()) →
        Blake3pow.calcOrder binaryLog rlpHash blake3 nodeCtx h = none) ∧
      ∀ powHash, Progpow.verifySeal rlpHash light sizeOfEpoch nodeCtx h = some (.ok powHash) →
        Progpow.calcOrder binaryLog rlpHash light sizeOfEpoch nodeCtx h = none :=
  ⟨Blake3pow.calcOrder_difficulty_one hd hn, fun _ => Progpow.calcOrder_difficulty_one hd hn⟩

/-- A zone header of difficulty 1 whose hashes are all 5. -/
def difficultyOneHeader : Types.Header := { Types.Header.sealedHeader with difficulty := 1 }

theorem calc_order_panics_at_difficulty_one_sealed :
    difficultyOneHeader.difficulty = 1 ∧ numberAt difficultyOneHeader .zone ≠ some 0 ∧
      Blake3pow.verifySeal (fun _ => 5) (fun _ _ => 5) difficultyOneHeader = some (.ok ()) ∧
      Progpow.verifySeal (fun _ => 5) (fun _ _ _ _ _ _ => (0, 5)) (fun _ => 0) .zone
        difficultyOneHeader = some (.ok 5) ∧
      (Blake3pow.calcOrder (fun n _ => (n.log2, 0)) (fun _ => 5) (fun _ _ => 5) .zone
          difficultyOneHeader = none ∧
        Progpow.calcOrder (fun n _ => (n.log2, 0)) (fun _ => 5) (fun _ _ _ _ _ _ => (0, 5))
          (fun _ => 0) .zone difficultyOneHeader = none) := by
  have hb : Blake3pow.verifySeal (fun _ => 5) (fun _ _ => 5) difficultyOneHeader = some (.ok ()) :=
    rfl
  have hp : Progpow.verifySeal (fun _ => 5) (fun _ _ _ _ _ _ => (0, 5)) (fun _ => 0) .zone
      difficultyOneHeader = some (.ok 5) := rfl
  have hn : numberAt difficultyOneHeader .zone ≠ some 0 := by decide
  obtain ⟨h1, h2⟩ := calc_order_panics_at_difficulty_one (fun n _ => (n.log2, 0)) (fun _ => 5)
    (fun _ _ => 5) (fun _ _ _ _ _ _ => (0, 5)) (fun _ => 0) .zone difficultyOneHeader rfl hn
  exact ⟨rfl, hn, hb, hp, h1 hb, h2 5 hp⟩

/-- A header numbered 0 in the prime context and 1 in the zone context, with
difficulty 0. -/
def primeGenesisNumberedHeader : Types.Header :=
  { Types.Header.sealedHeader with number := [0, 0, 1], difficulty := 0 }

/-- A prime node takes the genesis shortcut on `primeGenesisNumberedHeader` and
calls it a prime block; a zone node checks its seal and rejects it, whatever
the hash functions are. -/
theorem calc_order_depends_on_node_context (binaryLog : ℕ → ℕ → ℤ × ℤ)
    (rlpHash : SealData → Hash) (light : ℕ → ℕ → Hash → ℕ → ℕ → ℕ → Hash × Hash)
    (sizeOfEpoch : ℕ → ℕ) :
    Progpow.calcOrder binaryLog rlpHash light sizeOfEpoch .prime primeGenesisNumberedHeader =
        some (.ok (0, .prime)) ∧
      Progpow.calcOrder binaryLog rlpHash light sizeOfEpoch .zone primeGenesisNumberedHeader =
        some (.error "non-positive difficulty") :=
  ⟨rfl, rfl⟩

end GoQuai.Consensus
