import TypeSchema.Entries
import TypeSchema.Number.Basic

namespace TypeSchema

inductive Json
  | null
  | bool (value : Bool)
  | number (value : Number)
  | string (value : String)
  | array (items : List Json)
  | object (fields : List (String × Json))

namespace Json

/-- An integer as a value. -/
def int (n : Int) : Json := number (.integer n)

def nat (n : Nat) : Json := int n

def strings (items : List String) : Json := array (items.map string)

/-- A field, unless its value is absent. -/
def field? (name : String) (value : Option Json) : Entries Json :=
  (value.map fun v => (name, v)).toList

mutual

/-- Equality of values. Fields may stand in any order; each name is expected once. -/
def same : Json → Json → Bool
  | null, null => true
  | bool a, bool b => a == b
  | number a, number b => a.same b
  | string a, string b => a == b
  | array a, array b => sameItems a b
  | object a, object b => a.length == b.length && sameFields a b
  | _, _ => false

def sameItems : List Json → List Json → Bool
  | [], [] => true
  | a :: as, b :: bs => same a b && sameItems as bs
  | _, _ => false

/-- Every field of the first list has an equal one in the second. -/
def sameFields : List (String × Json) → Entries Json → Bool
  | [], _ => true
  | (name, a) :: rest, bs =>
    (match bs.get? name with
      | some b => same a b
      | none => false) && sameFields rest bs

end

/-- Equality of values that may be absent. -/
def sameOption : Option Json → Option Json → Bool
  | none, none => true
  | some a, some b => same a b
  | _, _ => false

/-- Equality of lists of values that may be absent. -/
def sameItemsOption : Option (List Json) → Option (List Json) → Bool
  | none, none => true
  | some a, some b => sameItems a b
  | _, _ => false

mutual

/-- The value with each field name once in every object: the last value counts, in the first place. -/
def distinct : Json → Json
  | null => null
  | bool b => bool b
  | number n => number n
  | string s => string s
  | array items => array (distinctItems items)
  | object fields => object (Entries.distinct (distinctFields fields))

def distinctItems : List Json → List Json
  | [] => []
  | item :: rest => distinct item :: distinctItems rest

def distinctFields : List (String × Json) → List (String × Json)
  | [] => []
  | (name, value) :: rest => (name, distinct value) :: distinctFields rest

end

def asString? : Json → Option String
  | string s => some s
  | _ => none

def asBool? : Json → Option Bool
  | bool b => some b
  | _ => none

def asArray? : Json → Option (List Json)
  | array items => some items
  | _ => none

/-- The value as a natural number; a float never counts as one. -/
def asNat? : Json → Option Nat
  | number (.integer n) => if 0 ≤ n then some n.toNat else none
  | _ => none

def isNull : Json → Bool
  | null => true
  | _ => false

/-- The list of strings that a value is. -/
def asStrings? (value : Json) : Option (List String) :=
  value.asArray?.bind fun items => items.mapM asString?

/-- The value of a field of an object. -/
def field (value : Json) (name : String) : Option Json :=
  match value with
  | object fields => Entries.get? name fields
  | _ => none

end Json

end TypeSchema
