import TypeSchema.Annotations
import TypeSchema.Text.Position
import TypeSchema.Title

namespace TypeSchema.DocComment

/-- A tag with the rest of its line and the lines up to the next tag. -/
structure Tag where
  name : List Char
  first : List Char
  more : List (List Char)

/-- The text without `before` in front and `after` behind, if both are there. -/
def unwrap? (before after s : List Char) : Option (List Char) :=
  (before.isPrefixOf? s).bind fun rest => after.isSuffixOf? rest

/-- What stands inside the comment marks; a text without them is taken whole. An escaped end mark stands for
the end mark. -/
def content (raw : List Char) : List Char :=
  replaceAll "*\\/".toList "*/".toList
    ((unwrap? "/**".toList "*/".toList (trim raw)).getD raw)

/-- A line without its indentation, the star in front, and one space after that. -/
def withoutStar (line : List Char) : List Char :=
  match trimStart line with
  | '*' :: ' ' :: rest => rest
  | '*' :: rest => rest
  | line => line

/-- The tag that a line starts: an at sign and a letter. -/
def tagOf? (line : List Char) : Option (List Char × List Char) :=
  match trimStart line with
  | '@' :: c :: rest =>
    if c.isAlpha then
      some ((c :: rest).takeWhile (!isBlank ·), trim ((c :: rest).dropWhile (!isBlank ·)))
    else none
  | _ => none

/-- The lines before the first tag, and the tags with the lines after each. -/
def splitTags : List (List Char) → List (List Char) × List Tag
  | [] => ([], [])
  | line :: rest =>
    let (before, tags) := splitTags rest
    match tagOf? line with
    | some (name, first) => ([], ⟨name, first, before⟩ :: tags)
    | none => (line :: before, tags)

def indentation (line : List Char) : Nat := byteSize (line.takeWhile isBlank)

/-- The least indentation of the lines that are not blank. -/
def commonIndentation (lines : List (List Char)) : Nat :=
  ((lines.filter fun line => !(trim line).isEmpty).map indentation).min?.getD 0

/-- The text of a tag, its later lines without their common indentation. -/
def tagText (first : List Char) (more : List (List Char)) : List Char :=
  let indent := commonIndentation more
  trim (joinWith ['\n'] (first :: more.map fun line => trimEnd ((dropBytes? indent line).getD [])))

/-- A text that is not blank, as an optional string. -/
def text? (s : List Char) : Option String :=
  if s.isEmpty then none else some (String.ofList s)

/-- What the tags of a comment say, in the order in which they say it. -/
structure Said where
  title : Option String := none
  descriptions : List (List Char) := []
  examples : List String := []
  defaults : List (List Char) := []
  see : List String := []

/-- What is said with one more tag. The first line of a title is the title, the rest of it description; tags
without a meaning of their own are description too. -/
def Said.add (said : Said) (tag : Tag) : Said :=
  let text := tagText tag.first tag.more
  if text.isEmpty then said
  else if tag.name = "title".toList then
    let rest := trim ((text.dropWhile (· != '\n')).drop 1)
    { said with
      title := said.title.or (some (String.ofList (trim (text.takeWhile (· != '\n')))))
      descriptions := if rest.isEmpty then said.descriptions else said.descriptions ++ [rest] }
  else if tag.name = "example".toList then
    { said with examples := said.examples ++ [String.ofList text] }
  else if tag.name = "default".toList then { said with defaults := said.defaults ++ [text] }
  else if tag.name = "see".toList then { said with see := said.see ++ [String.ofList text] }
  else { said with descriptions := said.descriptions ++ ['@' :: tag.name ++ ' ' :: text] }

def Said.annotations (said : Said) : Annotations where
  title := said.title
  description :=
    if said.descriptions.isEmpty then none
    else some (String.ofList (joinWith ['\n'] said.descriptions))
  examples := OneOrMany.ofList? said.examples
  defaultValue :=
    if said.defaults.isEmpty then none
    else some (.string (String.ofList (joinWith ['\n'] said.defaults)))
  see := OneOrMany.ofList? said.see

/-- The description of a comment, and what its tags say. -/
def parse (raw : String) : Option String × Annotations :=
  let (before, tags) := splitTags ((lines (content raw.toList)).map withoutStar)
  (text? (trim (joinWith ['\n'] before)), (tags.foldl Said.add {}).annotations)

/-- The annotations of the type at the end of a path: its comment, and the title that follows from the path
unless the comment gives one. -/
def read (doc : Option String) (path : Path) : Annotations :=
  match doc with
  | none => { title := path.title? }
  | some raw =>
    let (description, tags) := parse raw
    .merge [{ description },
      { title := if tags.title.isSome then none else path.title? }, tags]

/-- The sections of a comment. A title that is inferred anyway is left out. -/
def sections (a : Annotations) (inferred : Option String) : List (List Char) :=
  (a.description.map String.toList).toList ++
  (match a.title with
    | some title => if some title = inferred then [] else ["@title ".toList ++ title.toList]
    | none => []) ++
  (Annotations.listed a.examples).map (fun example_ =>
    "@example\n".toList ++ joinWith ['\n'] ((lines example_.toList).map ("    ".toList ++ ·))) ++
  (a.defaultValue.map fun value =>
    "@default ".toList ++ (Annotations.defaultText value).toList).toList ++
  (Annotations.listed a.see).map fun link => "@see ".toList ++ link.toList

/-- A line of a comment that has several. -/
def starred (line : List Char) : List Char :=
  if line.isEmpty then " *".toList else " * ".toList ++ line

/-- The comment that says what the annotations say, if they say anything. An end mark inside it is escaped. -/
def render (a : Annotations) (inferred : Option String) : Option String :=
  let text := replaceAll "*/".toList "*\\/".toList
    (trim (joinWith "\n\n".toList (sections a inferred)))
  if text.isEmpty then none
  else if text.contains '\n' then
    some (String.ofList
      ("/**\n".toList ++ joinWith ['\n'] ((lines text).map starred) ++ "\n */".toList))
  else some (String.ofList ("/** ".toList ++ text ++ " */".toList))

end TypeSchema.DocComment
