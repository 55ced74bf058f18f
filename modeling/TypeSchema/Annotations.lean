import TypeSchema.Json.Printer
import TypeSchema.Text.Blank

namespace TypeSchema

/-- A text or a list of texts. -/
inductive OneOrMany
  | one (text : String)
  | many (texts : List String)
deriving DecidableEq

namespace OneOrMany

def toList : OneOrMany → List String
  | one text => [text]
  | many texts => texts

/-- Nothing for no text, and a plain text for one. -/
def ofList? : List String → Option OneOrMany
  | [] => none
  | [text] => some (one text)
  | texts => some (many texts)

end OneOrMany

structure Annotations where
  title : Option String := none
  description : Option String := none
  examples : Option OneOrMany := none
  defaultValue : Option Json := none
  see : Option OneOrMany := none

namespace Annotations

def isEmpty (a : Annotations) : Bool :=
  a.title.isNone && a.description.isNone && a.examples.isNone && a.defaultValue.isNone &&
    a.see.isNone

/-- `top` laid over `base`: what is present on top counts. -/
def layer (base top : Annotations) : Annotations where
  title := top.title.or base.title
  description := top.description.or base.description
  examples := top.examples.or base.examples
  defaultValue := top.defaultValue.or base.defaultValue
  see := top.see.or base.see

/-- The texts that are not empty, each at its first place. -/
def distinctTexts (texts : List String) : List String := (texts.filter (· ≠ "")).eraseDups

/-- The distinct texts as one; nothing if that is blank. -/
def joined (separator : String) (texts : List String) : Option String :=
  let text := trimmed (joinTexts separator (distinctTexts texts))
  if text.isEmpty then none else some text

/-- A default as text: a string stands for itself, other values for their JSON text. -/
def defaultText : Json → String
  | .string s => s
  | value => value.compact

def listed (texts : Option OneOrMany) : List String := (texts.map OneOrMany.toList).getD []

/-- Several sets as one. Titles are joined by a comma, descriptions and defaults by a line feed; examples and
links are listed one after another. No text is kept twice. -/
def merge (sets : List Annotations) : Annotations where
  title := joined ", " (sets.filterMap title)
  description := joined "\n" (sets.filterMap description)
  examples := OneOrMany.ofList? (distinctTexts (sets.flatMap fun a => listed a.examples))
  defaultValue := (joined "\n" (sets.filterMap fun a => a.defaultValue.map defaultText)).map .string
  see := OneOrMany.ofList? (distinctTexts (sets.flatMap fun a => listed a.see))

/-- Equality of annotations. -/
def same (a b : Annotations) : Bool :=
  a.title == b.title && a.description == b.description && a.examples == b.examples &&
    Json.sameOption a.defaultValue b.defaultValue && a.see == b.see

/-- Equality of everything but titles. -/
def sameBody (a b : Annotations) : Bool :=
  a.description == b.description && a.examples == b.examples &&
    Json.sameOption a.defaultValue b.defaultValue && a.see == b.see

theorem layer_empty (a : Annotations) : a.layer {} = a := by
  simp [layer]

theorem empty_layer (a : Annotations) : layer {} a = a := by
  simp [layer]

end Annotations

end TypeSchema
