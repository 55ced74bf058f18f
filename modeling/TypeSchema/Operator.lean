namespace TypeSchema

inductive Operator
  /-- Only the named properties. -/
  | pick
  /-- All but the named properties. -/
  | drop
  /-- All properties, none of them required. -/
  | loosen
deriving DecidableEq, Repr

namespace Operator

def name : Operator → String
  | pick => "Pick"
  | drop => "Omit"
  | loosen => "Partial"

def arity : Operator → Nat
  | pick | drop => 2
  | loosen => 1

def ofName? (name : String) : Option Operator :=
  [pick, drop, loosen].find? (·.name == name)

theorem ofName?_name (op : Operator) : ofName? op.name = some op := by
  cases op <;> decide

end Operator

end TypeSchema
