import TypeSchema.Text.Blank

namespace TypeSchema

/-- A step on the way from a declaration down to a type. -/
inductive Ancestor
  | declaration (name : String)
  | property (name : String)
  | array
  /-- A tuple, with the index of the element that is stepped into. -/
  | tuple (position : Option Nat)
  | rest
  | optional
  | union
  | parenthesized
  | object
  /-- Keywords, references, intersections, index signatures. -/
  | other
deriving DecidableEq, Repr

/-- The steps to a type, innermost first; the first is the type's own. -/
abbrev Path := List Ancestor

/-- The containers that lend their title to a nameless type inside them. -/
def Ancestor.lendsTitle : Ancestor → Bool
  | array | tuple _ | optional | rest | union => true
  | _ => false

namespace Path

/-- The names on the way outward, up to the first step that hides them. -/
def titleParts : Path → List String
  | [] => []
  | .array :: outer => (if outer.head? = some .rest then [] else ["[]"]) ++ titleParts outer
  | .tuple position :: outer => (position.map toString).toList ++ titleParts outer
  | .declaration name :: outer => name :: titleParts outer
  | .property name :: outer => name :: titleParts outer
  | .other :: outer => if outer.head?.any Ancestor.lendsTitle then titleParts outer else []
  | .rest :: outer => titleParts outer
  | .optional :: outer => titleParts outer
  | .union :: outer => titleParts outer
  | .parenthesized :: outer => titleParts outer
  | .object :: outer => titleParts outer

/-- The dotted title of the type at the end of the path. -/
def title? (path : Path) : Option String :=
  match path.titleParts with
  | [] => none
  | parts => some (joinTexts "." parts.reverse)

end Path

end TypeSchema
