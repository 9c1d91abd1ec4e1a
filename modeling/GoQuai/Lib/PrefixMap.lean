import Mathlib.Logic.Function.Basic

/-! # Maps on paths

A map from lists to values, with the two writes a key-value store makes on
it: `put` one key to a value and `erase` one key.
-/

namespace GoQuai.PrefixMap

/-- A map from paths to values. -/
abbrev Map (α β : Type) := List α → Option β

variable {α β : Type}

def empty : Map α β := fun _ => none

variable [DecidableEq α]

def put (key : List α) (v : β) (m : Map α β) : Map α β := fun q => if q = key then some v else m q

def erase (key : List α) (m : Map α β) : Map α β := fun q => if q = key then none else m q

end GoQuai.PrefixMap
