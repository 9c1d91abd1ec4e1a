import GoQuai.Core.BlockTree

/-! # Routing of newly confirmed ETXs

On a prime or region node, `Slice.Append` gathers the ETXs its sub chains
emitted and that this node confirms, and passes them down with the block to the
sub chain of the block's location. `CollectNewlyConfirmedEtxs` gathers them
over a window of ancestors that ends at the previous block of the same sub
index, filtering the sub rollups by the block's full location; a block that
comes from the dominant chain (`domOrigin`) skips the collection and passes on
what its dominant node gave it.
-/

namespace GoQuai

/-- The fields of an ETX that routing reads: its hash, `To().Location()` and
`FromChain()`. -/
structure Etx where
  hash : Hash
  toLocation : Location
  fromChain : Location
  deriving DecidableEq, Repr

/-- `Transaction.ConfirmationCtx`: the context of the common dominant chain of
origin and destination. -/
def Etx.confirmationCtx (e : Etx) : Ctx := (e.toLocation.commonDom e.fromChain).context

/-- `Transactions.FilterToSlice`. -/
def filterToSlice (etxs : List Etx) (slice : Location) : List Etx :=
  etxs.filter fun e => e.toLocation.inSameSliceAs slice

/-- `Transactions.FilterConfirmationCtx`. -/
def filterConfirmationCtx (etxs : List Etx) (ctx : Ctx) : List Etx :=
  etxs.filter fun e => e.confirmationCtx = ctx

/-- `Transactions.FilterToLocation`. -/
def filterToLocation (etxs : List Etx) (l : Location) : List Etx :=
  etxs.filter fun e => l == e.toLocation

/-- One call of `Slice.Append` as far as routing reads it. -/
structure EtxAppend where
  header : Header
  domOrigin : Bool
  newInboundEtxs : List Etx

namespace BlockTree

variable (t : BlockTree) (nodeCtx : Ctx) (collectSubRollup : Header → Except String (List Etx))

/-- `Slice.CollectNewlyConfirmedEtxs`, fuelled by the number of the block:
the newly confirmed ETXs of the window, and the block's own sub rollup. -/
def collectNewlyConfirmedEtxs : ℕ → Header → Location → Except String (List Etx × List Etx)
  | 0, _, _ => .error "fuel"
  | fuel + 1, block, location =>
      let subRollup :=
        if nodeCtx.toNat < Ctx.zone.toNat then collectSubRollup block else .ok []
      match subRollup with
      | .error e => .error e
      | .ok subRollup =>
          let newInboundEtxs := filterToSlice subRollup location
          let newlyConfirmedEtxs := filterConfirmationCtx newInboundEtxs nodeCtx
          if block.number = 0 then
            if block.hash ≠ t.genesis.hash then .error "terminated search on bad genesis"
            else .ok (newlyConfirmedEtxs, subRollup)
          else
            match t.parentOf block with
            | none => .error "unable to find ancestor"
            | some ancestor =>
                if ancestor.location.subIndex nodeCtx = location.subIndex nodeCtx then
                  .ok (newlyConfirmedEtxs, subRollup)
                else
                  match collectNewlyConfirmedEtxs fuel ancestor location with
                  | .error e => .error e
                  | .ok (ancEtxs, _) => .ok (ancEtxs ++ newlyConfirmedEtxs, subRollup)

/-- The ETXs `Slice.Append` passes down to its sub chain with the block:
collected on a non-dominant append to a prime or region node, and otherwise
those the dominant node passed in. A failed collection is
`ErrSubNotSyncedToDom`. -/
def appendInboundEtxs (a : EtxAppend) : Except String (List Etx) :=
  if a.domOrigin = false ∧ nodeCtx ≠ .zone then
    match t.collectNewlyConfirmedEtxs nodeCtx collectSubRollup (a.header.number + 1) a.header
        a.header.location with
    | .error _ => .error "sub not synced to dom"
    | .ok (newInboundEtxs, _) => .ok newInboundEtxs
  else .ok a.newInboundEtxs

/-- The blocks of a run of appends, each with the ETXs passed down with it. -/
def deliveries (run : List EtxAppend) : Except String (List (Header × List Etx)) :=
  run.mapM fun a => (t.appendInboundEtxs nodeCtx collectSubRollup a).map fun l => (a.header, l)

/-- How many appends of a run passed `e` down with a block located at its
destination (`none` when an append fails). -/
def deliveredCount (run : List EtxAppend) (e : Etx) : Option ℕ :=
  (t.deliveries nodeCtx collectSubRollup run).toOption.map fun ds =>
    (ds.filter fun d => d.1.location == e.toLocation && d.2.contains e).length

/-! ## Windows that miss an ETX

On prime, the windows end at the previous block of the same region, but the
filter keeps only the ETXs for the block's own zone: an ETX confirmed in a block
of region 1 for zone `[0, 0]` is looked at only by the next block of region 0,
here in zone `[0, 1]`, and the block of zone `[0, 0]` after it stops at that one.
On a region node, a block that came from prime passes on prime's ETXs and never
collects: the ETX of its window is lost. -/

/-- A prime chain: genesis, then blocks of zones `[1, 0]`, `[0, 1]`, `[0, 0]`. -/
def primeTree : BlockTree :=
  ofList ⟨1, 0, 0, []⟩
    [⟨1, 0, 0, []⟩, ⟨2, 1, 1, [1, 0]⟩, ⟨3, 2, 2, [0, 1]⟩, ⟨4, 3, 3, [0, 0]⟩] (by decide)

/-- An ETX from zone `[1, 0]` to zone `[0, 0]`, emitted under block 2. -/
def primeEtx : Etx := ⟨9, [0, 0], [1, 0]⟩

def primeSubRollup (h : Header) : Except String (List Etx) :=
  .ok (if h.hash = 2 then [primeEtx] else [])

def primeRun : List EtxAppend :=
  [⟨⟨2, 1, 1, [1, 0]⟩, false, []⟩, ⟨⟨3, 2, 2, [0, 1]⟩, false, []⟩, ⟨⟨4, 3, 3, [0, 0]⟩, false, []⟩]

/-- A region-0 chain: genesis, then blocks of zones `[0, 1]`, `[0, 0]`, `[0, 0]`. -/
def regionTree : BlockTree :=
  ofList ⟨1, 0, 0, []⟩
    [⟨1, 0, 0, []⟩, ⟨5, 1, 1, [0, 1]⟩, ⟨6, 5, 2, [0, 0]⟩, ⟨7, 6, 3, [0, 0]⟩] (by decide)

/-- An ETX from zone `[0, 1]` to zone `[0, 0]`, emitted under block 5. -/
def regionEtx : Etx := ⟨8, [0, 0], [0, 1]⟩

def regionSubRollup (h : Header) : Except String (List Etx) :=
  .ok (if h.hash = 5 then [regionEtx] else [])

/-- Block 6 is a prime block and reaches the region with `domOrigin`. -/
def regionRun : List EtxAppend :=
  [⟨⟨5, 1, 1, [0, 1]⟩, false, []⟩, ⟨⟨6, 5, 2, [0, 0]⟩, true, []⟩, ⟨⟨7, 6, 3, [0, 0]⟩, false, []⟩]

/-- In both runs every append succeeds, the ETX is in the sub rollup of an
appended block and is confirmed in the node's context, and no block of its
destination zone receives it. -/
theorem newly_confirmed_etx_dropped :
    (primeSubRollup ⟨2, 1, 1, [1, 0]⟩ = .ok [primeEtx] ∧ primeEtx.confirmationCtx = .prime ∧
        primeTree.deliveredCount .prime primeSubRollup primeRun primeEtx = some 0) ∧
      (regionSubRollup ⟨5, 1, 1, [0, 1]⟩ = .ok [regionEtx] ∧
        regionEtx.confirmationCtx = .region ∧ regionEtx.toLocation.region = 0 ∧
        regionTree.deliveredCount .region regionSubRollup regionRun regionEtx = some 0) :=
  ⟨⟨rfl, by decide, by decide⟩, ⟨rfl, by decide, by decide, by decide⟩⟩

end BlockTree

end GoQuai
