import GoQuai.Types.Header

/-! # The caches of a header

A `*types.Header` caches `Hash()` and `SealHash()` in `hash` and `sealHash`,
and the progpow engine caches the result of `ComputePowLight` in `PowHash` and
`PowDigest`. Every setter clears `hash`, and every setter but `SetMixHash` and
`SetNonce` clears `sealHash`; no code clears `PowHash` or `PowDigest`.
`CopyHeader` copies the slots with the fields and then calls the setters.

The two hash slots stay coherent over every sequence of calls (`Coherent.run`).
The PoW slots do not: after `SetNonce`, `verifySeal` checks the digest and
result cached for the old nonce (`verifySeal_setNonce`).
-/

namespace GoQuai.Types

/-- The four cache slots of a `*types.Header`. -/
structure Caches where
  hash : Option Hash
  sealHash : Option Hash
  powHash : Option Hash
  powDigest : Option Hash
  deriving DecidableEq, Repr

/-- A `*types.Header`: its fields and its caches. -/
structure CachedHeader where
  fields : Header
  cache : Caches
  deriving DecidableEq, Repr

/-- The write of a per-context setter, `xs[ctx] = val`, which panics past the end. -/
def setCtx {α : Type} (xs : List α) (ctx : ℕ) (val : α) : Option (List α) :=
  if ctx < xs.length then some (xs.set ctx val) else none

/-- The errors of `verifySeal`. -/
inductive SealError
  | invalidDifficulty
  | invalidMixHash
  | invalidPoW
  deriving DecidableEq, Repr

namespace CachedHeader

/-- A header as a literal or the decoder makes it: no slot filled. -/
def ofFields (f : Header) : CachedHeader := ⟨f, ⟨none, none, none, none⟩⟩

/-- The body the setters share: clear `hash` and `sealHash`, then write. -/
def setField (write : Header → Header) (h : CachedHeader) : CachedHeader :=
  { fields := write h.fields, cache := { h.cache with hash := none, sealHash := none } }

/-- The body the per-context setters share. -/
def setFieldAt {α : Type} (get : Header → List α) (put : Header → List α → Header) (ctx : ℕ) (val : α)
    (h : CachedHeader) : Option CachedHeader :=
  (setCtx (get h.fields) ctx val).map fun xs => h.setField (put · xs)

def setParentHash (val : Hash) (ctx : ℕ) : CachedHeader → Option CachedHeader :=
  setFieldAt Header.parentHash (fun f xs => { f with parentHash := xs }) ctx val

def setUncleHash (val : Hash) : CachedHeader → CachedHeader := setField fun f => { f with uncleHash := val }

def setCoinbase (val : Address) : CachedHeader → CachedHeader := setField fun f => { f with coinbase := val }

def setRoot (val : Hash) : CachedHeader → CachedHeader := setField fun f => { f with root := val }

def setTxHash (val : Hash) : CachedHeader → CachedHeader := setField fun f => { f with txHash := val }

def setEtxHash (val : Hash) : CachedHeader → CachedHeader := setField fun f => { f with etxHash := val }

def setEtxRollupHash (val : Hash) : CachedHeader → CachedHeader :=
  setField fun f => { f with etxRollupHash := val }

def setParentEntropy (val : ℕ) (ctx : ℕ) : CachedHeader → Option CachedHeader :=
  setFieldAt Header.parentEntropy (fun f xs => { f with parentEntropy := xs }) ctx val

def setParentDeltaS (val : ℕ) (ctx : ℕ) : CachedHeader → Option CachedHeader :=
  setFieldAt Header.parentDeltaS (fun f xs => { f with parentDeltaS := xs }) ctx val

def setManifestHash (val : Hash) (ctx : ℕ) : CachedHeader → Option CachedHeader :=
  setFieldAt Header.manifestHash (fun f xs => { f with manifestHash := xs }) ctx val

def setReceiptHash (val : Hash) : CachedHeader → CachedHeader := setField fun f => { f with receiptHash := val }

def setDifficulty (val : ℕ) : CachedHeader → CachedHeader := setField fun f => { f with difficulty := val }

def setNumber (val : ℕ) (ctx : ℕ) : CachedHeader → Option CachedHeader :=
  setFieldAt Header.number (fun f xs => { f with number := xs }) ctx val

def setGasLimit (val : ℕ) : CachedHeader → CachedHeader := setField fun f => { f with gasLimit := val }

def setGasUsed (val : ℕ) : CachedHeader → CachedHeader := setField fun f => { f with gasUsed := val }

def setBaseFee (val : ℕ) : CachedHeader → CachedHeader := setField fun f => { f with baseFee := val }

def setLocation (val : Location) : CachedHeader → CachedHeader := setField fun f => { f with location := val }

def setTime (val : ℕ) : CachedHeader → CachedHeader := setField fun f => { f with time := val }

/-- `SetExtra` writes only a non-empty value; an empty one leaves `extra` as it was. -/
def setExtra (val : List UInt8) : CachedHeader → CachedHeader :=
  setField fun f => if val.length > 0 then { f with extra := val } else f

/-- `SetMixHash` clears `hash` only. -/
def setMixHash (val : Hash) (h : CachedHeader) : CachedHeader :=
  { fields := { h.fields with mixHash := val }, cache := { h.cache with hash := none } }

/-- `SetNonce` clears `hash` only. -/
def setNonce (val : ℕ) (h : CachedHeader) : CachedHeader :=
  { fields := { h.fields with nonce := val }, cache := { h.cache with hash := none } }

section Reads

variable (rlpHash : SealData → Hash) (blake3 : ℕ → Hash → Hash)

/-- `Header.SealHash`: the cached value, or the computed one, which is stored. -/
def sealHash (h : CachedHeader) : Option (Hash × CachedHeader) :=
  match h.cache.sealHash with
  | some v => some (v, h)
  | none => (h.fields.sealHash rlpHash).map fun v => (v, { h with cache := { h.cache with sealHash := some v } })

/-- `Header.Hash`: the cached value, or Blake3 of the nonce and `SealHash()`, which is stored. -/
def hash (h : CachedHeader) : Option (Hash × CachedHeader) :=
  match h.cache.hash with
  | some v => some (v, h)
  | none =>
      (h.sealHash rlpHash).map fun (s, h) =>
        (blake3 h.fields.nonce s, { h with cache := { h.cache with hash := some (blake3 h.fields.nonce s) } })

end Reads

/-- `CopyHeader`: `cpy := *h` copies all four slots, the loop reads the
per-context entries of `h` into fresh arrays, and the setters it calls clear
`hash` and `sealHash`. -/
def copyHeader (h : CachedHeader) : Option CachedHeader := do
  let parentHash ← perCtx h.fields.parentHash
  let manifestHash ← perCtx h.fields.manifestHash
  let parentEntropy ← perCtx h.fields.parentEntropy
  let parentDeltaS ← perCtx h.fields.parentDeltaS
  let number ← perCtx h.fields.number
  pure
    { fields := { h.fields with parentHash, manifestHash, parentEntropy, parentDeltaS, number }
      cache := { h.cache with hash := none, sealHash := none } }

section Progpow

variable (rlpHash : SealData → Hash) (powLight : Hash → ℕ → ℕ → ℕ → Hash × Hash) (nodeCtx : ℕ)

/-- `Progpow.ComputePowLight`: the light verifier on the seal hash, the nonce,
the number that picks the cache and the zone number; `powLight` returns the
digest and the result, which are stored in `PowDigest` and `PowHash`. -/
def computePowLight (h : CachedHeader) : Option ((Hash × Hash) × CachedHeader) := do
  let epochNumber ← h.fields.number[nodeCtx]?
  let (sh, h) ← h.sealHash rlpHash
  let blockNumber ← h.fields.number[2]?
  let (digest, result) := powLight sh h.fields.nonce (epochNumber % 2 ^ 64) (blockNumber % 2 ^ 64)
  pure ((digest, result), { h with cache := { h.cache with powDigest := some digest, powHash := some result } })

/-- The comparisons of `verifySeal` against a digest and a result. -/
def checkPow (mixHash : Hash) (difficulty : ℕ) (digest result : Hash) : Except SealError Hash :=
  if mixHash ≠ digest then .error .invalidMixHash
  else if result > 2 ^ 256 / difficulty then .error .invalidPoW
  else .ok result

/-- `Progpow.verifySeal` in the full mode: the cached digest and result, or
`ComputePowLight` when either slot is empty. -/
def verifySeal (h : CachedHeader) : Option (Except SealError Hash × CachedHeader) :=
  if h.fields.difficulty = 0 then some (.error .invalidDifficulty, h)
  else do
    let ((digest, result), h) ← match h.cache.powDigest, h.cache.powHash with
      | some d, some r => some ((d, r), h)
      | _, _ => computePowLight rlpHash powLight nodeCtx h
    pure (checkPow h.fields.mixHash h.fields.difficulty digest result, h)

end Progpow

/-- The calls on one header object; after `copyHeader` the calls go to the copy. -/
inductive Call
  | setParentHash (val : Hash) (ctx : ℕ)
  | setUncleHash (val : Hash)
  | setCoinbase (val : Address)
  | setRoot (val : Hash)
  | setTxHash (val : Hash)
  | setEtxHash (val : Hash)
  | setEtxRollupHash (val : Hash)
  | setParentEntropy (val ctx : ℕ)
  | setParentDeltaS (val ctx : ℕ)
  | setManifestHash (val : Hash) (ctx : ℕ)
  | setReceiptHash (val : Hash)
  | setDifficulty (val : ℕ)
  | setNumber (val ctx : ℕ)
  | setGasLimit (val : ℕ)
  | setGasUsed (val : ℕ)
  | setBaseFee (val : ℕ)
  | setLocation (val : Location)
  | setTime (val : ℕ)
  | setExtra (val : List UInt8)
  | setMixHash (val : Hash)
  | setNonce (val : ℕ)
  | copyHeader
  | hash
  | sealHash
  | computePowLight
  | verifySeal

section Calls

variable (rlpHash : SealData → Hash) (blake3 : ℕ → Hash → Hash)
  (powLight : Hash → ℕ → ℕ → ℕ → Hash × Hash) (nodeCtx : ℕ)

/-- The header object after one call; a panic is `none`. -/
def Call.apply (h : CachedHeader) : Call → Option CachedHeader
  | .setParentHash val ctx => h.setParentHash val ctx
  | .setUncleHash val => some (h.setUncleHash val)
  | .setCoinbase val => some (h.setCoinbase val)
  | .setRoot val => some (h.setRoot val)
  | .setTxHash val => some (h.setTxHash val)
  | .setEtxHash val => some (h.setEtxHash val)
  | .setEtxRollupHash val => some (h.setEtxRollupHash val)
  | .setParentEntropy val ctx => h.setParentEntropy val ctx
  | .setParentDeltaS val ctx => h.setParentDeltaS val ctx
  | .setManifestHash val ctx => h.setManifestHash val ctx
  | .setReceiptHash val => some (h.setReceiptHash val)
  | .setDifficulty val => some (h.setDifficulty val)
  | .setNumber val ctx => h.setNumber val ctx
  | .setGasLimit val => some (h.setGasLimit val)
  | .setGasUsed val => some (h.setGasUsed val)
  | .setBaseFee val => some (h.setBaseFee val)
  | .setLocation val => some (h.setLocation val)
  | .setTime val => some (h.setTime val)
  | .setExtra val => some (h.setExtra val)
  | .setMixHash val => some (h.setMixHash val)
  | .setNonce val => some (h.setNonce val)
  | .copyHeader => h.copyHeader
  | .hash => (h.hash rlpHash blake3).map Prod.snd
  | .sealHash => (h.sealHash rlpHash).map Prod.snd
  | .computePowLight => (h.computePowLight rlpHash powLight nodeCtx).map Prod.snd
  | .verifySeal => (h.verifySeal rlpHash powLight nodeCtx).map Prod.snd

/-- The header object after a sequence of calls. -/
def run : List Call → CachedHeader → Option CachedHeader
  | [], h => some h
  | c :: cs, h => (c.apply rlpHash blake3 powLight nodeCtx h).bind (run cs)

end Calls

/-! ## The hash slots -/

/-- The hash slots hold what `Hash()` and `SealHash()` compute from the fields. -/
structure HashCoherent (rlpHash : SealData → Hash) (blake3 : ℕ → Hash → Hash) (h : CachedHeader) : Prop where
  hash : ∀ v ∈ h.cache.hash, h.fields.hash rlpHash blake3 = some v
  sealHash : ∀ v ∈ h.cache.sealHash, h.fields.sealHash rlpHash = some v

section HashSlots

variable {rlpHash : SealData → Hash} {blake3 : ℕ → Hash → Hash}
  {powLight : Hash → ℕ → ℕ → ℕ → Hash × Hash} {nodeCtx : ℕ} {h h' : CachedHeader}

theorem hashCoherent_ofFields (f : Header) : HashCoherent rlpHash blake3 (ofFields f) :=
  ⟨by simp [ofFields], by simp [ofFields]⟩

theorem hashCoherent_setField (write : Header → Header) (h : CachedHeader) :
    HashCoherent rlpHash blake3 (h.setField write) :=
  ⟨by simp [setField], by simp [setField]⟩

theorem hashCoherent_of_setFieldAt {α : Type} {get : Header → List α} {put : Header → List α → Header}
    {ctx : ℕ} {val : α} (hs : h.setFieldAt get put ctx val = some h') : HashCoherent rlpHash blake3 h' := by
  simp only [setFieldAt, Option.map_eq_some_iff] at hs
  obtain ⟨xs, -, rfl⟩ := hs
  exact hashCoherent_setField _ _

/-- `SetMixHash` may keep `sealHash`: the seal does not read the mix hash. -/
theorem HashCoherent.setMixHash (hc : HashCoherent rlpHash blake3 h) (val : Hash) :
    HashCoherent rlpHash blake3 (h.setMixHash val) :=
  ⟨by simp [CachedHeader.setMixHash], hc.sealHash⟩

/-- `SetNonce` may keep `sealHash`: the seal does not read the nonce. -/
theorem HashCoherent.setNonce (hc : HashCoherent rlpHash blake3 h) (val : ℕ) :
    HashCoherent rlpHash blake3 (h.setNonce val) :=
  ⟨by simp [CachedHeader.setNonce], hc.sealHash⟩

theorem hashCoherent_of_copyHeader (hs : h.copyHeader = some h') : HashCoherent rlpHash blake3 h' := by
  simp only [copyHeader, Option.bind_eq_bind, Option.bind_eq_some_iff, Option.pure_def,
    Option.some.injEq] at hs
  obtain ⟨_, -, _, -, _, -, _, -, _, -, rfl⟩ := hs
  exact ⟨by simp, by simp⟩

/-- `SealHash()` returns what the fields give and leaves it in the slot. -/
theorem sealHash_spec (hc : HashCoherent rlpHash blake3 h) (hr : h.sealHash rlpHash = some (v, h')) :
    h.fields.sealHash rlpHash = some v ∧ h' = { h with cache := { h.cache with sealHash := some v } } := by
  unfold CachedHeader.sealHash at hr
  cases hs : h.cache.sealHash with
  | some w =>
      simp only [hs, Option.some.injEq, Prod.mk.injEq] at hr
      obtain ⟨rfl, rfl⟩ := hr
      refine ⟨hc.sealHash _ hs, ?_⟩
      rw [← hs]
  | none =>
      simp only [hs, Option.map_eq_some_iff, Prod.mk.injEq] at hr
      obtain ⟨w, hw, rfl, rfl⟩ := hr
      exact ⟨hw, rfl⟩

theorem HashCoherent.sealHash_read (hc : HashCoherent rlpHash blake3 h)
    (hr : h.sealHash rlpHash = some (v, h')) : HashCoherent rlpHash blake3 h' := by
  obtain ⟨hv, rfl⟩ := sealHash_spec hc hr
  exact ⟨hc.hash, by simpa using hv⟩

/-- `Hash()` returns what the fields give; the slots it fills stay coherent. -/
theorem hash_spec (hc : HashCoherent rlpHash blake3 h) (hr : h.hash rlpHash blake3 = some (v, h')) :
    h.fields.hash rlpHash blake3 = some v ∧ h'.fields = h.fields ∧ h'.cache.powHash = h.cache.powHash ∧
      h'.cache.powDigest = h.cache.powDigest ∧ HashCoherent rlpHash blake3 h' := by
  unfold CachedHeader.hash at hr
  cases hs : h.cache.hash with
  | some w =>
      simp only [hs, Option.some.injEq, Prod.mk.injEq] at hr
      obtain ⟨rfl, rfl⟩ := hr
      exact ⟨hc.hash _ hs, rfl, rfl, rfl, hc⟩
  | none =>
      simp only [hs, Option.map_eq_some_iff, Prod.exists, Prod.mk.injEq] at hr
      obtain ⟨s, h₁, hr₁, rfl, rfl⟩ := hr
      obtain ⟨hsv, rfl⟩ := sealHash_spec hc hr₁
      have hv : h.fields.hash rlpHash blake3 = some (blake3 h.fields.nonce s) := by
        simp [Header.hash, hsv]
      exact ⟨hv, rfl, rfl, rfl, by simpa using hv, by simpa using hsv⟩

theorem HashCoherent.computePowLight (hc : HashCoherent rlpHash blake3 h)
    (hr : h.computePowLight rlpHash powLight nodeCtx = some (r, h')) : HashCoherent rlpHash blake3 h' := by
  simp only [CachedHeader.computePowLight, Option.bind_eq_bind, Option.bind_eq_some_iff,
    Option.pure_def, Option.some.injEq] at hr
  obtain ⟨_, -, ⟨s, h₁⟩, hr₁, _, -, hr₂⟩ := hr
  obtain ⟨hsv, rfl⟩ := sealHash_spec hc hr₁
  obtain ⟨-, rfl⟩ := Prod.mk.inj hr₂
  exact ⟨hc.hash, by simpa using hsv⟩

theorem HashCoherent.verifySeal (hc : HashCoherent rlpHash blake3 h)
    (hr : h.verifySeal rlpHash powLight nodeCtx = some (r, h')) : HashCoherent rlpHash blake3 h' := by
  unfold CachedHeader.verifySeal at hr
  split_ifs at hr
  · obtain ⟨-, rfl⟩ := Prod.mk.inj (Option.some.inj hr)
    exact hc
  · simp only [Option.bind_eq_bind, Option.pure_def] at hr
    split at hr
    · obtain ⟨-, rfl⟩ := Prod.mk.inj (Option.some.inj hr)
      exact hc
    · obtain ⟨⟨_, h₁⟩, hr₁, hr₂⟩ := Option.bind_eq_some_iff.mp hr
      obtain ⟨-, rfl⟩ := Prod.mk.inj (Option.some.inj hr₂)
      exact hc.computePowLight hr₁

/-- Every call keeps the hash slots coherent. -/
theorem HashCoherent.apply (hc : HashCoherent rlpHash blake3 h) (c : Call)
    (hr : c.apply rlpHash blake3 powLight nodeCtx h = some h') : HashCoherent rlpHash blake3 h' := by
  cases c with
  | setParentHash | setParentEntropy | setParentDeltaS | setManifestHash | setNumber =>
      exact hashCoherent_of_setFieldAt hr
  | setUncleHash | setCoinbase | setRoot | setTxHash | setEtxHash | setEtxRollupHash | setReceiptHash
    | setDifficulty | setGasLimit | setGasUsed | setBaseFee | setLocation | setTime | setExtra =>
      cases hr
      exact hashCoherent_setField _ _
  | setMixHash val =>
      cases hr
      exact hc.setMixHash val
  | setNonce val =>
      cases hr
      exact hc.setNonce val
  | copyHeader => exact hashCoherent_of_copyHeader hr
  | hash =>
      obtain ⟨⟨v, h₁⟩, hr₁, rfl⟩ := Option.map_eq_some_iff.mp hr
      exact (hash_spec hc hr₁).2.2.2.2
  | sealHash =>
      obtain ⟨⟨v, h₁⟩, hr₁, rfl⟩ := Option.map_eq_some_iff.mp hr
      exact hc.sealHash_read hr₁
  | computePowLight =>
      obtain ⟨⟨v, h₁⟩, hr₁, rfl⟩ := Option.map_eq_some_iff.mp hr
      exact hc.computePowLight hr₁
  | verifySeal =>
      obtain ⟨⟨v, h₁⟩, hr₁, rfl⟩ := Option.map_eq_some_iff.mp hr
      exact hc.verifySeal hr₁

theorem HashCoherent.run (hc : HashCoherent rlpHash blake3 h) (cs : List Call)
    (hr : run rlpHash blake3 powLight nodeCtx cs h = some h') : HashCoherent rlpHash blake3 h' := by
  induction cs generalizing h with
  | nil =>
      cases hr
      exact hc
  | cons c cs ih =>
      obtain ⟨h₁, hr₁, hr₂⟩ := Option.bind_eq_some_iff.mp hr
      exact ih (hc.apply c hr₁) hr₂

/-- After any sequence of setters, copies and reads on a header built from its
fields, `Hash()` and `SealHash()` return what the current fields give: their
slots never go stale. -/
theorem hash_slots_never_stale (f : Header) (cs : List Call)
    (hr : run rlpHash blake3 powLight nodeCtx cs (ofFields f) = some h) :
    (∀ v h', h.hash rlpHash blake3 = some (v, h') → h.fields.hash rlpHash blake3 = some v) ∧
      ∀ v h', h.sealHash rlpHash = some (v, h') → h.fields.sealHash rlpHash = some v := by
  have hc := (hashCoherent_ofFields f).run cs hr
  exact ⟨fun v h' hv => (hash_spec hc hv).1, fun v h' hv => (sealHash_spec hc hv).1⟩

end HashSlots

/-! ## The PoW slots -/

/-- The PoW slots hold what `ComputePowLight` computes from the fields. -/
def PowCoherent (rlpHash : SealData → Hash) (powLight : Hash → ℕ → ℕ → ℕ → Hash × Hash) (nodeCtx : ℕ)
    (h : CachedHeader) : Prop :=
  ∀ d r, h.cache.powDigest = some d → h.cache.powHash = some r →
    ((ofFields h.fields).computePowLight rlpHash powLight nodeCtx).map Prod.fst = some (d, r)

section PowSlots

variable {rlpHash : SealData → Hash} {blake3 : ℕ → Hash → Hash}
  {powLight : Hash → ℕ → ℕ → ℕ → Hash × Hash} {nodeCtx : ℕ} {h h' : CachedHeader}

/-- With both PoW slots filled, `verifySeal` checks them and computes nothing. -/
theorem verifySeal_of_cached (hdiff : h.fields.difficulty ≠ 0) (hd : h.cache.powDigest = some d)
    (hr : h.cache.powHash = some r) :
    h.verifySeal rlpHash powLight nodeCtx = some (checkPow h.fields.mixHash h.fields.difficulty d r, h) := by
  simp [CachedHeader.verifySeal, hdiff, hd, hr]

/-- `SetNonce` leaves the PoW slots, so `verifySeal` checks the digest and
result of the old nonce and never reads the new one. -/
theorem verifySeal_setNonce (hdiff : h.fields.difficulty ≠ 0) (hd : h.cache.powDigest = some d)
    (hr : h.cache.powHash = some r) (n : ℕ) :
    (h.setNonce n).verifySeal rlpHash powLight nodeCtx =
      some (checkPow h.fields.mixHash h.fields.difficulty d r, h.setNonce n) :=
  verifySeal_of_cached hdiff hd hr

/-- `ComputePowLight` fills the PoW slots with what the fields give. -/
theorem PowCoherent.computePowLight (hc : HashCoherent rlpHash blake3 h)
    (hr : h.computePowLight rlpHash powLight nodeCtx = some (p, h')) : PowCoherent rlpHash powLight nodeCtx h' := by
  simp only [CachedHeader.computePowLight, Option.bind_eq_bind, Option.bind_eq_some_iff,
    Option.pure_def, Option.some.injEq] at hr
  obtain ⟨e, he, ⟨s, h₁⟩, hr₁, b, hb, hr₂⟩ := hr
  obtain ⟨hsv, rfl⟩ := sealHash_spec hc hr₁
  obtain ⟨rfl, rfl⟩ := Prod.mk.inj hr₂
  intro d r hd hr
  simp only [Option.some.injEq] at hd hr
  simp [CachedHeader.computePowLight, ofFields, he, hb, CachedHeader.sealHash, hsv, ← hd, ← hr]

/-- `ComputePowLight` stores the digest and the result it returns. -/
theorem computePowLight_slots (hr : h.computePowLight rlpHash powLight nodeCtx = some ((d, r), h')) :
    h'.cache.powDigest = some d ∧ h'.cache.powHash = some r := by
  simp only [CachedHeader.computePowLight, Option.bind_eq_bind, Option.bind_eq_some_iff,
    Option.pure_def, Option.some.injEq] at hr
  obtain ⟨e, he, ⟨s, h₁⟩, hr₁, b, hb, hr₂⟩ := hr
  obtain ⟨hp, rfl⟩ := Prod.mk.inj hr₂
  obtain ⟨rfl, rfl⟩ := Prod.mk.inj hp
  exact ⟨rfl, rfl⟩

end PowSlots

/-- A light verifier whose digest is the nonce. -/
def nonceDigest : Hash → ℕ → ℕ → ℕ → Hash × Hash := fun _ nonce _ _ => (nonce, 0)

/-- A zone header mined at nonce 7 with the mix hash that nonce gives. -/
def minedHeader : Header := { Header.sealedHeader with mixHash := 7 }

/-- The run of the stale PoW cache below keeps its hash slots fresh. -/
theorem hash_slots_never_stale_mined :
    ∃ h₁, run (fun _ => 0) (fun _ _ => 0) nonceDigest 2 [.computePowLight, .setNonce 8] (ofFields minedHeader) =
        some h₁ ∧
      (∀ v h', h₁.hash (fun _ => 0) (fun _ _ => 0) = some (v, h') → h₁.fields.hash (fun _ => 0) (fun _ _ => 0) = some v) ∧
      ∀ v h', h₁.sealHash (fun _ => 0) = some (v, h') → h₁.fields.sealHash (fun _ => 0) = some v :=
  ⟨_, rfl, @hash_slots_never_stale _ _ nonceDigest 2 _ minedHeader [.computePowLight, .setNonce 8] rfl⟩

theorem set_nonce_keeps_stale_pow_cache :
    ∃ h₁, run (fun _ => 0) (fun _ _ => 0) nonceDigest 2 [.computePowLight, .setNonce 8] (ofFields minedHeader) =
        some h₁ ∧
      h₁.fields.nonce = 8 ∧
      (h₁.verifySeal (fun _ => 0) nonceDigest 2).map Prod.fst = some (.ok 0) ∧
      ((ofFields h₁.fields).verifySeal (fun _ => 0) nonceDigest 2).map Prod.fst = some (.error .invalidMixHash) ∧
      ¬ PowCoherent (fun _ => 0) nonceDigest 2 h₁ := by
  refine ⟨_, rfl, rfl, rfl, rfl, fun hc => ?_⟩
  -- the slots hold the digest of nonce 7; the fields now give that of nonce 8
  exact absurd (hc 7 0 rfl rfl) (by decide)

end CachedHeader

end GoQuai.Types
