import GoQuai.Lib.Wrap

/-! # The gas limit rule of the worker and of the verifier

The worker picks the gas limit of its pending header with `CalcGasLimit`,
moving the parent's limit towards a configured target by less than a
1024th; `verifyHeader` accepts a zone header whose limit is at most `2^63 - 1`,
at least its gas used, and within `VerifyGaslimit`'s bound of the parent's,
which it computes through `int64` casts. All quantities are `uint64`.
-/

namespace GoQuai

/-- `params.GasLimitBoundDivisor`. -/
def gasLimitBoundDivisor : ℕ := 1024

/-- `params.MinGasLimit`. -/
def minGasLimit : ℕ := 5000000

/-- `params.PercentGasUsedThreshold`. -/
def percentGasUsedThreshold : ℕ := 95

/-- The largest gas limit `verifyHeader` accepts on a zone header. -/
def gasLimitCap : ℕ := 0x7fffffffffffffff

/-- `core.CalcGasLimit`. -/
def calcGasLimit (parentGasLimit desiredLimit : ℕ) : ℕ :=
  let delta := Wrap.sub 64 (parentGasLimit / gasLimitBoundDivisor) 1
  let desiredLimit := if desiredLimit < minGasLimit then minGasLimit else desiredLimit
  if parentGasLimit < desiredLimit then
    let limit := Wrap.add 64 parentGasLimit delta
    if limit > desiredLimit then desiredLimit else limit
  else if parentGasLimit > desiredLimit then
    let limit := Wrap.sub 64 parentGasLimit delta
    if limit < desiredLimit then desiredLimit else limit
  else parentGasLimit

/-- `worker.adjustGasLimit`: the target is the configured ceiling when the
parent used more than 95% of its gas, and the floor otherwise. The division by
a zero parent gas limit panics. -/
def adjustGasLimit (gasCeil gasFloor parentGasUsed parentGasLimit : ℕ) : Option ℕ :=
  if parentGasLimit = 0 then none
  else
    let percentGasUsed := Wrap.mul 64 parentGasUsed 100 / parentGasLimit
    if percentGasUsed > percentGasUsedThreshold then some (calcGasLimit parentGasLimit gasCeil)
    else some (calcGasLimit parentGasLimit gasFloor)

/-- `misc.VerifyGaslimit`. -/
def verifyGaslimit (parentGasLimit headerGasLimit : ℕ) : Except String Unit :=
  let diff := Wrap.wrapSigned 64 (Wrap.signed 64 parentGasLimit - Wrap.signed 64 headerGasLimit)
  let diff := if diff < 0 then Wrap.wrapSigned 64 (-diff) else diff
  let limit := parentGasLimit / gasLimitBoundDivisor
  if Wrap.unsigned 64 diff ≥ limit then .error "invalid gas limit"
  else if headerGasLimit < minGasLimit then .error "invalid gas limit below 5000"
  else .ok ()

/-- The gas checks of `Blake3pow.verifyHeader` on a zone header. -/
def verifyHeaderGas (parentGasLimit gasLimit gasUsed : ℕ) : Except String Unit :=
  if gasLimit > gasLimitCap then .error "invalid gasLimit"
  else if gasUsed > gasLimit then .error "invalid gasUsed"
  else verifyGaslimit parentGasLimit gasLimit

section Bounds

variable {p : ℕ}

theorem delta_of_le_cap (hmin : minGasLimit ≤ p) (hp : p ≤ gasLimitCap) :
    Wrap.sub 64 (p / gasLimitBoundDivisor) 1 = p / gasLimitBoundDivisor - 1 := by
  unfold minGasLimit gasLimitCap gasLimitBoundDivisor at *
  exact Wrap.sub_of_le (by omega) (by omega)

/-- Between the minimum and the cap, `CalcGasLimit` moves the parent's limit
towards the clamped target by at most `parent / 1024 - 1`, without wrapping. -/
theorem calcGasLimit_eq (d : ℕ) (hmin : minGasLimit ≤ p) (hp : p ≤ gasLimitCap) :
    calcGasLimit p d =
      if p < max d minGasLimit then min (p + (p / gasLimitBoundDivisor - 1)) (max d minGasLimit)
      else max (p - (p / gasLimitBoundDivisor - 1)) (max d minGasLimit) := by
  have hdiv : p / gasLimitBoundDivisor ≤ p := Nat.div_le_self _ _
  have hadd : Wrap.add 64 p (p / gasLimitBoundDivisor - 1) = p + (p / gasLimitBoundDivisor - 1) :=
    Wrap.add_of_lt (by unfold gasLimitCap at hp; omega)
  have hsub : Wrap.sub 64 p (p / gasLimitBoundDivisor - 1) = p - (p / gasLimitBoundDivisor - 1) :=
    Wrap.sub_of_le (by unfold gasLimitCap at hp; omega) (by omega)
  simp only [calcGasLimit, delta_of_le_cap hmin hp, hadd, hsub]
  split_ifs <;> omega

theorem calcGasLimit_bounds (d : ℕ) (hmin : minGasLimit ≤ p) (hp : p ≤ gasLimitCap) :
    max p (calcGasLimit p d) - min p (calcGasLimit p d) < p / gasLimitBoundDivisor ∧
      minGasLimit ≤ calcGasLimit p d ∧ calcGasLimit p d ≤ max p (max d minGasLimit) := by
  have hpos : 0 < p / gasLimitBoundDivisor := by
    unfold minGasLimit gasLimitBoundDivisor at *
    omega
  rw [calcGasLimit_eq d hmin hp]
  split_ifs <;> omega

/-- `VerifyGaslimit` below the cap: the `int64` casts are exact, and the check
is that the limits differ by less than `parent / 1024` and the new one is at
least the minimum. -/
theorem verifyGaslimit_eq_ok_iff {h : ℕ} (hp : p ≤ gasLimitCap) (hh : h ≤ gasLimitCap) :
    verifyGaslimit p h = .ok () ↔
      max p h - min p h < p / gasLimitBoundDivisor ∧ minGasLimit ≤ h := by
  unfold gasLimitCap at hp hh
  have hp' : Wrap.signed 64 p = p := Wrap.signed_of_lt (by omega)
  have hh' : Wrap.signed 64 h = h := Wrap.signed_of_lt (by omega)
  have hd : Wrap.wrapSigned 64 ((p : ℤ) - h) = p - h :=
    Wrap.wrapSigned_of_range (by norm_num) (by omega) (by omega)
  have hdiff : Wrap.unsigned 64 (if (p : ℤ) - h < 0 then Wrap.wrapSigned 64 (-((p : ℤ) - h))
      else (p : ℤ) - h) = max p h - min p h := by
    split_ifs with hneg
    · rw [Wrap.wrapSigned_of_range (by norm_num) (by omega) (by omega),
        Wrap.unsigned_of_nonneg (by omega) (by omega)]
      omega
    · rw [Wrap.unsigned_of_nonneg (by omega) (by omega)]
      omega
  simp only [verifyGaslimit, hp', hh', hd, hdiff]
  split_ifs with hge hlow
  · simp only [false_iff, not_and]
    omega
  · simp only [false_iff, not_and]
    omega
  · simp only [true_iff]
    omega

/-- Worker and verifier agree on the gas limit whenever the target is below
the cap: the limit `CalcGasLimit` picks passes every gas check of
`verifyHeader` on a header that has used no gas yet. -/
theorem verifyHeaderGas_calcGasLimit {d : ℕ} (hmin : minGasLimit ≤ p) (hp : p ≤ gasLimitCap)
    (hd : d ≤ gasLimitCap) : verifyHeaderGas p (calcGasLimit p d) 0 = .ok () := by
  rcases calcGasLimit_bounds d hmin hp with ⟨hdist, hlow, hhigh⟩
  have hcap : calcGasLimit p d ≤ gasLimitCap := by
    unfold minGasLimit gasLimitCap at *
    omega
  rw [verifyHeaderGas, if_neg (Nat.not_lt.mpr hcap), if_neg (Nat.not_lt.mpr (Nat.zero_le _))]
  exact (verifyGaslimit_eq_ok_iff hp hcap).mpr ⟨hdist, hlow⟩

/-- Whenever the configured ceiling and floor are below the cap, the worker
finds a gas limit for every parent header the verifier accepted, and the header
it builds on it passes the verifier's gas checks. -/
theorem adjustGasLimit_verified {gasCeil gasFloor parentGasUsed : ℕ} (hmin : minGasLimit ≤ p)
    (hp : p ≤ gasLimitCap) (hceil : gasCeil ≤ gasLimitCap) (hfloor : gasFloor ≤ gasLimitCap) :
    ∃ g, adjustGasLimit gasCeil gasFloor parentGasUsed p = some g ∧
      verifyHeaderGas p g 0 = .ok () := by
  have hp0 : p ≠ 0 := by
    unfold minGasLimit at hmin
    omega
  simp only [adjustGasLimit, if_neg hp0]
  split_ifs
  · exact ⟨_, rfl, verifyHeaderGas_calcGasLimit hmin hp hceil⟩
  · exact ⟨_, rfl, verifyHeaderGas_calcGasLimit hmin hp hfloor⟩

/-- A parent of eight million gas that used over 95% of it, and a ceiling of ten million. -/
theorem adjustGasLimit_verified_full :
    minGasLimit ≤ 8000000 ∧ 8000000 ≤ gasLimitCap ∧ 10000000 ≤ gasLimitCap ∧
      ∃ g, adjustGasLimit 10000000 10000000 7800000 8000000 = some g ∧ verifyHeaderGas 8000000 g 0 = .ok () :=
  ⟨by decide, by decide, by decide, adjustGasLimit_verified (by decide) (by decide) (by decide) (by decide)⟩

end Bounds

/-- A parent at the cap and a target above it: the worker raises the limit past
the cap, and the verifier rejects the header it builds. -/
theorem pending_gas_limit_over_cap :
    minGasLimit ≤ gasLimitCap ∧
      adjustGasLimit (2 ^ 64 - 1) (2 ^ 64 - 1) 0 gasLimitCap = some 9232379236109516797 ∧
      verifyHeaderGas gasLimitCap 9232379236109516797 0 = .error "invalid gasLimit" :=
  ⟨by decide, by decide, rfl⟩

end GoQuai
