/-! # Dictionaries

Values by name, as a list of pairs in the order in which the names came in. A name that gets a
new value keeps its place. -/

namespace AluVM

/-- Values by name in the order in which the names came in. -/
abbrev Dict (α : Type) := List (String × α)

namespace Dict

/-- The value of a name. -/
def get? {α : Type} (d : Dict α) (key : String) : Option α := d.lookup key

/-- Whether a name has a value. -/
def has {α : Type} (d : Dict α) (key : String) : Bool := d.any (·.1 = key)

/-- Gives a name a value: a known name keeps its place, a new one comes last. -/
def put {α : Type} (d : Dict α) (key : String) (value : α) : Dict α :=
  if d.has key then d.map fun (k, v) => (k, if k = key then value else v)
  else d ++ [(key, value)]

/-- The names and values of a list, the last value of a name winning. -/
def ofList {α : Type} (pairs : List (String × α)) : Dict α :=
  pairs.foldl (fun d (k, v) => d.put k v) []

end Dict

end AluVM
