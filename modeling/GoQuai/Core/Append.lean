import GoQuai.Lib.Staged
import GoQuai.Common.Location

/-! # What a failed `Slice.Append` leaves in the database

`Slice.Append` opens a batch, threads it through `pcrc`, `HeaderChain.Append`,
`BodyDb.Append` and `StateProcessor.Apply`, and writes it once every step has
passed. On a zone node, `Apply` writes the block's bloom (`AddBloom`) and its
unspent-ETX set (`WriteEtxSet`) straight to the database, and the pending
header is generated after that; on prime and region nodes the only direct
writes are the pending ETXs and their rollup, after the sub chain's `Append`.

Each step the model does not embed is given by its outcome; the values written
are given with them.
-/

namespace GoQuai.Append

/-- The database tables `Slice.Append` writes. -/
inductive Table
  | termini
  | header
  | receipts
  | bloom
  | preimages
  | etxSet
  | txLookup
  | body
  | pendingEtxs
  | pendingEtxsRollup
  deriving DecidableEq, Repr

/-- A database entry: its table and the block hash it is stored under. -/
abbrev Key := Table × Hash

/-- The outcomes of the steps of one `Append` call. -/
structure Steps where
  hash : Hash
  badHash : Bool
  known : Bool
  domClientUp : Bool
  constructLocalBlock : Except String Unit
  pcrc : Except String ℕ
  collectNewlyConfirmedEtxs : Except String Unit
  verifyHeader : Except String Unit
  manifest : Except String Unit
  process : Except String (ℕ × ℕ × ℕ)
  commit : Except String Unit
  generatePendingHeader : Except String Unit
  subAppend : Except String Unit

/-- The error of a step, if it failed. -/
def errOf {α : Type} : Except String α → Option String
  | .error e => some e
  | .ok _ => none

/-- The value of a step; only read after the step has passed. -/
def valOf {α : Type} (d : α) : Except String α → α
  | .ok v => v
  | .error _ => d

@[simp] theorem errOf_ok {α : Type} (a : α) : errOf (.ok a : Except String α) = none := rfl

@[simp] theorem errOf_error {α : Type} (e : String) : errOf (.error e : Except String α) = some e :=
  rfl

@[simp] theorem valOf_ok {α : Type} (d a : α) : valOf d (.ok a : Except String α) = a := rfl

abbrev Op := Staged.Op String Key ℕ

variable (s : Steps)

/-- `StateProcessor.Apply` from the processing on: receipts go to the batch,
the bloom and the ETX set straight to the database. -/
def applyOps : List Op :=
  let (receipts, bloom, etxSet) := valOf (0, 0, 0) s.process
  [.check (errOf s.process), .stage (.receipts, s.hash) receipts, .put (.bloom, s.hash) bloom,
    .stage (.preimages, s.hash) 0, .check (errOf s.commit), .put (.etxSet, s.hash) etxSet]

/-- `BodyDb.Append`. -/
def bodyDbAppendOps (nodeCtx : Ctx) : List Op :=
  (if nodeCtx = .zone then applyOps s ++ [.stage (.txLookup, s.hash) 0] else []) ++
    [.stage (.body, s.hash) 0]

/-- `HeaderChain.Append`. -/
def headerChainAppendOps (nodeCtx : Ctx) : List Op :=
  [.check (errOf s.verifyHeader)] ++
    (if nodeCtx ≠ .prime then [.check (errOf s.manifest)] else []) ++
    [.stage (.header, s.hash) 0] ++ bodyDbAppendOps s nodeCtx

/-- The checks of `Slice.Append` before the batch is opened, and `pcrc`. -/
def prologueOps (nodeCtx : Ctx) (domOrigin : Bool) : List Op :=
  [.check (if s.badHash then some "bad block hash" else none),
    .check (if s.known then some "block already known" else none),
    .check (if s.domClientUp = false ∧ nodeCtx ≠ .prime then some "dom client is not online" else none),
    .check (errOf s.constructLocalBlock),
    .check (errOf s.pcrc), .stage (.termini, s.hash) (valOf 0 s.pcrc)] ++
    (if domOrigin = false ∧ nodeCtx ≠ .zone then
      [.check (if (errOf s.collectNewlyConfirmedEtxs).isSome then some "sub not synced to dom" else none)]
    else [])

/-- The sub chain's `Append` and the pending ETXs it returns. -/
def subOps (nodeCtx : Ctx) : List Op :=
  if nodeCtx ≠ .zone then
    [.check (errOf s.subAppend), .put (.pendingEtxs, s.hash) 0] ++
      (if nodeCtx = .region then [.put (.pendingEtxsRollup, s.hash) 0] else [])
  else []

/-- The steps of `Slice.Append` up to the write of the batch. -/
def appendOps (nodeCtx : Ctx) (domOrigin : Bool) : List Op :=
  prologueOps s nodeCtx domOrigin ++ headerChainAppendOps s nodeCtx ++
    [.check (errOf s.generatePendingHeader)] ++ subOps s nodeCtx

/-- `Slice.Append`: the database after the batch is written, or the error and
the database as the call left it. -/
def append (nodeCtx : Ctx) (domOrigin : Bool) (db : Key → Option ℕ) :
    Except (String × (Key → Option ℕ)) (Key → Option ℕ) :=
  Staged.commit (appendOps s nodeCtx domOrigin) db

/-- Every step up to and including `Apply` passes. -/
def ThroughApply : Prop :=
  s.badHash = false ∧ s.known = false ∧ s.domClientUp = true ∧
    errOf s.constructLocalBlock = none ∧ errOf s.pcrc = none ∧
    errOf s.collectNewlyConfirmedEtxs = none ∧ errOf s.verifyHeader = none ∧
    errOf s.manifest = none ∧ errOf s.process = none ∧ errOf s.commit = none

variable {s}

/-- A zone block that passes every step up to `Apply`, on a node whose worker
has no coinbase: `GeneratePendingHeader` fails. -/
def noEtherbaseSteps : Steps :=
  ⟨5, false, false, true, .ok (), .ok 7, .ok (), .ok (), .ok (), .ok (1, 2, 3), .ok (),
    .error "etherbase not found", .ok ()⟩

theorem append_error_keeps_direct_writes :
    ∃ db', append noEtherbaseSteps .zone true (fun _ => none) = .error ("etherbase not found", db') ∧
      db' (.bloom, 5) = some 2 ∧ db' (.etxSet, 5) = some 3 ∧ db' (.header, 5) = none ∧
      db' (.termini, 5) = none :=
  ⟨_, rfl, rfl, rfl, rfl, rfl⟩

end GoQuai.Append
