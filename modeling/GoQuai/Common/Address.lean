import GoQuai.Common.Location

/-! # Addresses and their scope

`BytesToAddress` classifies a byte string as an internal address when it is in
the chain scope of the node (its hash is zero, or its first byte lies in the
prefix range of the node's zone), and then stores it cropped from the left, or
left-padded with zeros, to twenty bytes. The classification reads the input,
the stored address is what every later check reads. An external address is
located by searching the zones for the one whose prefix range holds its first
stored byte.

A panic (`b[0]` of an empty slice) or a `log.Fatal` is `none` here.
-/

namespace GoQuai.Common

/-- `common.NumRegionsInPrime`. -/
def numRegionsInPrime : ℕ := 3

/-- `common.NumZonesInRegion`. -/
def numZonesInRegion : ℕ := 3

/-- `common.HierarchyDepth`. -/
def hierarchyDepth : ℕ := 3

/-- `b` cropped from the left, or left-padded with zeros, to `n` bytes: what
`setBytes` leaves in an `n`-byte array. -/
def cropPad (n : ℕ) (b : List UInt8) : List UInt8 :=
  List.replicate (n - (b.drop (b.length - n)).length) 0 ++ b.drop (b.length - n)

-- Generate the equation lemmas of these definitions once, here, rather than in
-- each of the proofs below that unfold them while they are elaborated in parallel.
section
attribute [local simp] hierarchyDepth cropPad
end

theorem length_cropPad (n : ℕ) (b : List UInt8) : (cropPad n b).length = n := by
  simp [cropPad]
  omega

/-- `common.AddressBytes`: twenty bytes. -/
structure AddressBytes where
  bytes : List UInt8
  length_eq : bytes.length = 20
  deriving DecidableEq

/-- `setBytes` of `InternalAddress` and `ExternalAddress`. -/
def setBytes (b : List UInt8) : AddressBytes := ⟨cropPad 20 b, length_cropPad 20 b⟩

/-- The zero address. -/
def zeroAddress : AddressBytes := setBytes []

/-- `locationToPrefixRange[loc.Name()]`: the first bytes a zone owns. -/
def prefixRange : Location → Option (ℕ × ℕ)
  | [0, 0] => some (0, 29)
  | [0, 1] => some (30, 58)
  | [0, 2] => some (59, 87)
  | [1, 0] => some (88, 115)
  | [1, 1] => some (116, 143)
  | [1, 2] => some (144, 171)
  | [2, 0] => some (172, 199)
  | [2, 1] => some (200, 227)
  | [2, 2] => some (228, 255)
  | _ => none

/-- `IsInChainScope`: only a zone node has a scope; the zero hash is in it, and
otherwise the first byte of the input decides. -/
def isInChainScope (nodeLocation : Location) (b : List UInt8) : Option Bool :=
  if nodeLocation.context ≠ .zone then some false
  else if cropPad 32 b = cropPad 32 zeroAddress.bytes then some true
  else
    match b.head?, prefixRange nodeLocation with
    | some p, some (lo, hi) => some (decide (lo ≤ p.toNat ∧ p.toNat ≤ hi))
    | _, _ => none

/-- `common.Address`: no inner address, an internal one or an external one. -/
inductive Address
  | nil
  | internal (a : AddressBytes)
  | external (a : AddressBytes)
  deriving DecidableEq

/-- `BytesToAddress`. -/
def bytesToAddress (nodeLocation : Location) (b : List UInt8) : Option Address := do
  if ← isInChainScope nodeLocation b then return .internal (setBytes b)
  else return .external (setBytes b)

/-- `Address.Bytes`. -/
def Address.bytes : Address → List UInt8
  | .nil => []
  | .internal a => a.bytes
  | .external a => a.bytes

/-- `Address.Bytes20`: a `nil` address gives twenty zero bytes. -/
def Address.bytes20 : Address → AddressBytes
  | .nil => zeroAddress
  | .internal a => a
  | .external a => a

/-- `Address.InternalAddress`. -/
def Address.internalAddress : Address → Except String AddressBytes
  | .nil => .ok zeroAddress
  | .internal a => .ok a
  | .external _ => .error "address is not in scope"

/-- `Location.ContainsAddress`: only a zone contains addresses, those whose
first byte is in its prefix range. -/
def containsAddress (l : Location) (a : Address) : Option Bool :=
  if l.context ≠ .zone then some false
  else
    match a.bytes.head?, prefixRange l with
    | some p, some (lo, hi) => some (decide (lo ≤ p.toNat ∧ p.toNat ≤ hi))
    | _, _ => none

/-- The locations `ExternalAddress.Location` tries, in order: the zones of each
region from the node's own on, the region itself, and prime once. -/
def searchOrder (nodeLocation : Location) : List Location :=
  let r₀ := if 0 ≤ nodeLocation.region then nodeLocation.region.toNat else 0
  let z₀ := if 0 ≤ nodeLocation.zone then nodeLocation.zone.toNat else 0
  (List.range numRegionsInPrime).flatMap fun r =>
    (List.range numZonesInRegion).map
        (fun z => [(r + r₀) % hierarchyDepth, (z + z₀) % hierarchyDepth]) ++
      [[(r + r₀) % hierarchyDepth]] ++ (if r = 0 then [[]] else [])

section
attribute [local simp] prefixRange isInChainScope Address.bytes searchOrder
end

/-- The first of a list of locations that contains the address, if any. -/
def findContaining (a : Address) : List Location → Option (Option Location)
  | [] => some none
  | l :: ls => do
      if ← containsAddress l a then return some l
      findContaining a ls

/-- `Address.Location`: an internal address is in the node's location. -/
def Address.location (nodeLocation : Location) : Address → Option (Option Location)
  | .nil => some (some nodeLocation)
  | .internal _ => some (some nodeLocation)
  | .external a => findContaining (.external a) (searchOrder nodeLocation)

/-! ## Twenty-byte inputs -/

theorem cropPad_of_length {n : ℕ} {b : List UInt8} (hb : b.length = n) : cropPad n b = b := by
  simp [cropPad, hb]

theorem setBytes_bytes_of_length {b : List UInt8} (hb : b.length = 20) : (setBytes b).bytes = b :=
  cropPad_of_length hb

/-- The zero-hash test of `IsInChainScope` on twenty bytes asks for the zero
address. -/
theorem cropPad_hash_eq_iff {b : List UInt8} (hb : b.length = 20) :
    cropPad 32 b = cropPad 32 zeroAddress.bytes ↔ b = zeroAddress.bytes := by
  have hz : zeroAddress.bytes.length = 20 := zeroAddress.length_eq
  simp [cropPad, hb, hz]

/-- On a zone node, twenty bytes are internal exactly when they are the zero
address or start in the node's prefix range. -/
theorem isInChainScope_of_length {nodeLocation : Location} {lo hi : ℕ} {b : List UInt8}
    (hz : nodeLocation.context = .zone) (hr : prefixRange nodeLocation = some (lo, hi))
    (hb : b.length = 20) :
    isInChainScope nodeLocation b =
      some (decide (b = zeroAddress.bytes ∨ ∃ p ∈ b.head?, lo ≤ p.toNat ∧ p.toNat ≤ hi)) := by
  obtain ⟨p, rest, rfl⟩ : ∃ p rest, b = p :: rest := List.exists_cons_of_ne_nil (by
    rintro rfl
    simp at hb)
  by_cases hzero : p :: rest = zeroAddress.bytes
  · simp [isInChainScope, hz, hzero]
  · simp [isInChainScope, hz, mt (cropPad_hash_eq_iff hb).mp hzero, hzero, hr]

/-! ## The zone of an external address -/

/-- The zone whose prefix range holds a first byte. -/
def zoneOfPrefix (n : ℕ) : Location :=
  if n ≤ 29 then [0, 0] else if n ≤ 58 then [0, 1]
  else if n ≤ 87 then [0, 2] else if n ≤ 115 then [1, 0]
  else if n ≤ 143 then [1, 1] else if n ≤ 171 then [1, 2]
  else if n ≤ 199 then [2, 0] else if n ≤ 227 then [2, 1] else [2, 2]

/-- The zone of the first byte `p`. -/
def prefixZone (p : UInt8) : Location := zoneOfPrefix p.toNat

theorem prefixRange_eq_some {l : Location} {r : ℕ × ℕ} (h : prefixRange l = some r) :
    ∃ x y, x < 3 ∧ y < 3 ∧ l = [x, y] := by
  unfold prefixRange at h
  split at h <;> first | exact ⟨_, _, by decide, by decide, rfl⟩ | simp at h

set_option maxRecDepth 10000 in
/-- The nine prefix ranges partition the bytes, in the order of `zoneOfPrefix`;
checked over every byte and zone. -/
theorem prefixRange_partition : ∀ n < 256, ∀ x < 3, ∀ y < 3, ∀ r ∈ prefixRange [x, y],
    (r.1 ≤ n ∧ n ≤ r.2) ↔ [x, y] = zoneOfPrefix n := by
  decide

/-- A zone's range holds a byte exactly when the zone is the byte's
`prefixZone`. -/
theorem prefixRange_iff {l : Location} {lo hi : ℕ} (hr : prefixRange l = some (lo, hi))
    (p : UInt8) : (lo ≤ p.toNat ∧ p.toNat ≤ hi) ↔ l = prefixZone p := by
  obtain ⟨x, y, hx, hy, rfl⟩ := prefixRange_eq_some hr
  exact prefixRange_partition p.toNat p.toNat_lt x hx y hy (lo, hi) hr

/-- The first stored byte of an address. -/
def AddressBytes.first (a : AddressBytes) : UInt8 :=
  a.bytes.get ⟨0, by rw [a.length_eq]; decide⟩

theorem AddressBytes.head?_bytes (a : AddressBytes) : a.bytes.head? = some a.first := by
  obtain ⟨bs, hbs⟩ := a
  cases bs with
  | nil => simp at hbs
  | cons b bs => rfl

theorem context_pair (x y : ℕ) : Location.context [x, y] = .zone := by
  simp [Location.context, Location.zone]

theorem context_single (x : ℕ) : Location.context [x] = .region := by
  simp [Location.context, Location.zone, Location.region]

theorem context_nil : Location.context [] = .prime := by
  simp [Location.context, Location.zone, Location.region]

theorem prefixZone_cases (p : UInt8) : ∃ x y, x < 3 ∧ y < 3 ∧ prefixZone p = [x, y] := by
  unfold prefixZone zoneOfPrefix
  split_ifs <;> exact ⟨_, _, by decide, by decide, rfl⟩

theorem prefixRange_isSome {x y : ℕ} (hx : x < 3) (hy : y < 3) :
    ∃ lo hi, prefixRange [x, y] = some (lo, hi) := by
  have hall : ∀ x < 3, ∀ y < 3, (prefixRange [x, y]).isSome = true := by decide
  obtain ⟨⟨lo, hi⟩, h⟩ := Option.isSome_iff_exists.mp (hall x hx y hy)
  exact ⟨lo, hi, h⟩

theorem mem_searchOrder {nodeLocation l : Location} (hl : l ∈ searchOrder nodeLocation) :
    (∃ x y, x < 3 ∧ y < 3 ∧ l = [x, y]) ∨ (∃ x, l = [x]) ∨ l = [] := by
  simp only [searchOrder, List.mem_flatMap, List.mem_range, List.mem_append, List.mem_map,
    List.mem_singleton, hierarchyDepth] at hl
  obtain ⟨r, -, (⟨z, -, rfl⟩ | rfl) | hprime⟩ := hl
  · exact .inl ⟨_, _, Nat.mod_lt _ (by decide), Nat.mod_lt _ (by decide), rfl⟩
  · exact .inr (.inl ⟨_, rfl⟩)
  · split_ifs at hprime
    · exact .inr (.inr (List.mem_singleton.mp hprime))
    · simp at hprime

/-- Every location the search tries contains an external address exactly when
it is the address's zone. -/
theorem containsAddress_of_mem_searchOrder {nodeLocation l : Location} (a : AddressBytes)
    (hl : l ∈ searchOrder nodeLocation) :
    containsAddress l (.external a) = some (decide (l = prefixZone a.first)) := by
  obtain ⟨x', y', -, -, hzone⟩ := prefixZone_cases a.first
  rcases mem_searchOrder hl with ⟨x, y, hx, hy, rfl⟩ | ⟨x, rfl⟩ | rfl
  · obtain ⟨lo, hi, hr⟩ := prefixRange_isSome hx hy
    simp [containsAddress, context_pair, Address.bytes, a.head?_bytes, hr,
      prefixRange_iff hr a.first]
  · simp [containsAddress, context_single, hzone]
  · simp [containsAddress, context_nil, hzone]

theorem findContaining_eq {a : Address} {target : Location} :
    ∀ {ls : List Location}, (∀ l ∈ ls, containsAddress l a = some (decide (l = target))) →
      target ∈ ls → findContaining a ls = some (some target)
  | [], _, hmem => absurd hmem List.not_mem_nil
  | l :: ls, hcontains, hmem => by
      have hl := hcontains l List.mem_cons_self
      by_cases hlt : l = target
      · subst hlt
        simp [findContaining, hl]
      · have hrest : target ∈ ls := by
          rcases List.mem_cons.mp hmem with h | h
          · exact absurd h.symm hlt
          · exact h
        simp only [findContaining, hl, hlt, decide_false, Option.bind_eq_bind, Option.bind_some]
        exact findContaining_eq (fun l' hl' => hcontains l' (List.mem_cons_of_mem _ hl')) hrest

theorem prefixZone_mem_searchOrder (nodeLocation : Location) (p : UInt8) :
    prefixZone p ∈ searchOrder nodeLocation := by
  obtain ⟨x, y, hx, hy, hxy⟩ := prefixZone_cases p
  rw [hxy]
  simp only [searchOrder, List.mem_flatMap, List.mem_range, List.mem_append, List.mem_map,
    List.mem_singleton, hierarchyDepth, numRegionsInPrime, numZonesInRegion]
  generalize (if 0 ≤ nodeLocation.region then nodeLocation.region.toNat else 0) = r₀
  generalize (if 0 ≤ nodeLocation.zone then nodeLocation.zone.toNat else 0) = z₀
  -- the search starts at the node's own region and zone and wraps around
  refine ⟨(x + 3 - r₀ % 3) % 3, Nat.mod_lt _ (by decide), .inl (.inl ⟨(y + 3 - z₀ % 3) % 3,
    Nat.mod_lt _ (by decide), ?_⟩)⟩
  simp only [List.cons.injEq, and_true]
  omega

/-- `ExternalAddress.Location` finds the zone whose prefix range holds the
address's first byte, on every node. -/
theorem location_external (nodeLocation : Location) (a : AddressBytes) :
    (Address.external a).location nodeLocation = some (some (prefixZone a.first)) :=
  findContaining_eq (fun _ hl => containsAddress_of_mem_searchOrder a hl)
    (prefixZone_mem_searchOrder nodeLocation a.first)

/-! ## Classification against location -/

/-- On a zone node, an address decoded from exactly twenty bytes is internal
exactly when its location is the node's. -/
theorem internalAddress_iff_location_of_length {nodeLocation : Location} {lo hi : ℕ}
    {b : List UInt8} (hz : nodeLocation.context = .zone)
    (hr : prefixRange nodeLocation = some (lo, hi)) (hb : b.length = 20) :
    ∃ a, bytesToAddress nodeLocation b = some a ∧ a.bytes = b ∧
      ((∃ x, a.internalAddress = .ok x) ↔ a.location nodeLocation = some (some nodeLocation)) := by
  have hscope := isInChainScope_of_length hz hr hb
  by_cases hin : b = zeroAddress.bytes ∨ ∃ p ∈ b.head?, lo ≤ p.toNat ∧ p.toNat ≤ hi
  · refine ⟨.internal (setBytes b), by simp only [bytesToAddress, hscope, decide_eq_true hin]; rfl,
      ?_, ?_⟩
    · exact setBytes_bytes_of_length hb
    · simp [Address.internalAddress, Address.location]
  · refine ⟨.external (setBytes b), by simp only [bytesToAddress, hscope, decide_eq_false hin]; rfl,
      ?_, ?_⟩
    · exact setBytes_bytes_of_length hb
    -- the first byte is outside the node's range, so the address's zone is another
    have hfirst : (setBytes b).first ∈ b.head? := by
      have hhead := (setBytes b).head?_bytes
      rw [setBytes_bytes_of_length hb] at hhead
      exact Option.mem_def.mpr hhead
    have hout : nodeLocation ≠ prefixZone (setBytes b).first := fun heq =>
      hin (.inr ⟨_, hfirst, (prefixRange_iff hr _).mpr heq⟩)
    simp [Address.internalAddress, location_external, Ne.symm hout]

/-- On zone `[0, 0]`, twenty bytes led by 1, inside its range, and twenty bytes
led by 200, outside it. -/
theorem internalAddress_iff_location_of_length_zone :
    Location.context [0, 0] = .zone ∧ prefixRange [0, 0] = some (0, 29) ∧
      (∃ a, bytesToAddress [0, 0] (1 :: List.replicate 19 0) = some a ∧ a.bytes = 1 :: List.replicate 19 0 ∧
        ((∃ x, a.internalAddress = .ok x) ↔ a.location [0, 0] = some (some [0, 0]))) ∧
      ∃ a, bytesToAddress [0, 0] (200 :: List.replicate 19 0) = some a ∧
        a.bytes = 200 :: List.replicate 19 0 ∧
        ((∃ x, a.internalAddress = .ok x) ↔ a.location [0, 0] = some (some [0, 0])) :=
  ⟨rfl, rfl, internalAddress_iff_location_of_length rfl rfl rfl,
    internalAddress_iff_location_of_length rfl rfl rfl⟩

/-- Twenty-one bytes: a first byte of zone `[0, 1]`, then twenty zeros. -/
def croppedInput : List UInt8 := 30 :: List.replicate 20 0

/-- On zone `[0, 0]`, `BytesToAddress` classifies `croppedInput` by its
uncropped first byte as external, but stores the zero address, which lies in
zone `[0, 0]`: the external address is located at the node, and
`InternalAddress` rejects it. -/
theorem bytes_to_address_reads_uncropped_byte :
    bytesToAddress [0, 0] croppedInput = some (.external (setBytes croppedInput)) ∧
      (setBytes croppedInput).bytes = zeroAddress.bytes ∧
      (Address.external (setBytes croppedInput)).location [0, 0] = some (some [0, 0]) ∧
      (Address.external (setBytes croppedInput)).internalAddress =
        .error "address is not in scope" :=
  ⟨by decide, by decide, by decide, rfl⟩

end GoQuai.Common
