import GrammarFrontend.Walk.Run

/-! Entries by name. An entry is a production, or a script that visits nodes by name and decides by
what comes of it how to go on.
-/

namespace GrammarFrontend

/-- What is still to do at an entry: end, or visit a node by name first. -/
inductive Script where
  | finish (outcome : Outcome)
  | visit (node : Node) (name : String) (next : Outcome → Script)

inductive Handler where
  | production (p : Production)
  | script (start : Node → Script)

/-- Every name has one entry. -/
structure Registry where
  entries : List (String × Handler)

namespace Registry

def empty : Registry := { entries := [] }

def get? (r : Registry) (name : String) : Option Handler := r.entries.lookup name

def contains (r : Registry) (name : String) : Bool := (r.get? name).isSome

def remove (r : Registry) (name : String) : Registry :=
  { entries := r.entries.filter (·.1 != name) }

/-- Enters a handler under a name, in place of the one before. -/
def register (r : Registry) (name : String) (handler : Handler) : Registry :=
  { entries := (name, handler) :: (r.remove name).entries }

def size (r : Registry) : Nat := r.entries.length

/-- The names, by code point. -/
def names (r : Registry) : List String := (r.entries.map (·.1)).mergeSort (fun a b => a ≤ b)

/-- Every production under its name. -/
def full : Registry := { entries := Production.all.map (fun p => (p.name, .production p)) }

/-- One line on the size of a registry. -/
def summary (r : Registry) : String :=
  "ProductionRegistry \x7b count: " ++ Nat.repr r.size ++ " \x7d"

end Registry

end GrammarFrontend
