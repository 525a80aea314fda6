/-!
# Keyed collections

A collection of values under keys, in the order in which the keys first arrived.
-/

namespace TensorToolchain

/-- Values under keys, in order of arrival. -/
structure Keyed (κ α : Type) where
  entries : List (κ × α) := []
  deriving DecidableEq

namespace Keyed

variable {κ α β : Type} [DecidableEq κ] (m : Keyed κ α)

def get? (k : κ) : Option α := (m.entries.find? (·.1 = k)).map Prod.snd

def contains (k : κ) : Bool := m.entries.any (·.1 = k)

/-- Put a value under a key, which keeps its place if it is there. -/
def set (k : κ) (v : α) : Keyed κ α :=
  if m.contains k then ⟨m.entries.map fun p => if p.1 = k then (k, v) else p⟩
  else ⟨m.entries ++ [(k, v)]⟩

def erase (k : κ) : Keyed κ α := ⟨m.entries.filter (·.1 ≠ k)⟩

def merge (m n : Keyed κ α) : Keyed κ α := n.entries.foldl (fun m p => m.set p.1 p.2) m

/-- The collection of some pairs; the last value of a key counts. -/
def ofList (pairs : List (κ × α)) : Keyed κ α := pairs.foldl (fun m p => m.set p.1 p.2) {}

omit [DecidableEq κ] in
def keys : List κ := m.entries.map Prod.fst

omit [DecidableEq κ] in
def values : List α := m.entries.map Prod.snd

omit [DecidableEq κ] in
def mapValues (f : κ → α → β) (m : Keyed κ α) : Keyed κ β := ⟨m.entries.map fun (k, v) => (k, f k v)⟩

end Keyed

end TensorToolchain
