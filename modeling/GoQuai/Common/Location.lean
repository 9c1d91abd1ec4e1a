import Mathlib

/-! # Chain locations in the Quai hierarchy

A `Location` is the path of a chain from the root of the hierarchy: prime is
`[]`, region `r` is `[r]`, zone `(r, z)` is `[r, z]`. The accessors return `-1`
for a missing index, as `common.Location` does, and `SubIndex` reads the index
of the subordinate chain relative to the context of the running node.
-/

namespace GoQuai

/-- `common.Hash`; the model only compares hashes for equality. -/
abbrev Hash := ℕ

/-- The empty hash `common.Hash{}`, which `rawdb` returns for a missing entry. -/
def zeroHash : Hash := 0

/-- `PRIME_CTX = 0`, `REGION_CTX = 1`, `ZONE_CTX = 2`. -/
inductive Ctx
  | prime
  | region
  | zone
  deriving DecidableEq, Repr

/-- The integer the source uses for a context. -/
def Ctx.toNat : Ctx → ℕ
  | .prime => 0
  | .region => 1
  | .zone => 2

/-- `common.Location`, a byte path from the root. -/
abbrev Location := List ℕ

namespace Location

/-- `Location.Region`. -/
def region : Location → Int
  | r :: _ => (r : Int)
  | [] => -1

/-- `Location.Zone`. -/
def zone : Location → Int
  | _ :: z :: _ => (z : Int)
  | _ => -1

/-- `Location.Context`: zone when a zone index is present, region when only a
region index is. -/
def context (loc : Location) : Ctx :=
  if 0 ≤ loc.zone then .zone else if 0 ≤ loc.region then .region else .prime

-- Generate the equation lemmas of these definitions once, here, rather than in
-- each of the proofs below that unfold them while they are elaborated in parallel.
section
attribute [local simp] region zone context
end

/-- `Location.SubIndex`, evaluated on a node running in context `nodeCtx`. -/
def subIndex (nodeCtx : Ctx) (loc : Location) : Int :=
  match nodeCtx with
  | .prime => loc.region
  | .region => loc.zone
  | .zone => -1

/-- `Location.InSameSliceAs`: the shorter location is a prefix of the longer. -/
def inSameSliceAs (loc cmp : Location) : Bool :=
  if loc.length > cmp.length then cmp == loc.take cmp.length
  else loc == cmp.take loc.length

/-- `Location.CommonDom`: the longest common prefix of two locations. -/
def commonDom : Location → Location → Location
  | a :: as, b :: bs => if a = b then a :: commonDom as bs else []
  | _, _ => []

@[simp] theorem subIndex_zone (loc : Location) : subIndex .zone loc = -1 := rfl

end Location

end GoQuai
