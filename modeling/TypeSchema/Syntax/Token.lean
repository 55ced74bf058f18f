import TypeSchema.Text.Position

namespace TypeSchema

structure Comment where
  text : String
  span : Span
  /-- The rows of its first and last character. -/
  row : Nat
  lastRow : Nat
  /-- Does a line end in the gap before it? -/
  onNewLine : Bool
deriving DecidableEq, Repr

inductive TokenKind
  | word
  | privateName
  | number
  | string
  | template
  | regex
  | mark
  /-- What stands after the last token. -/
  | finish
deriving DecidableEq, Repr

structure Token where
  kind : TokenKind
  text : String
  span : Span
  row : Nat
  comments : List Comment
  /-- Does a line end in the gap before it, after the last comment? -/
  onNewLine : Bool
deriving DecidableEq, Repr

namespace Token

/-- Stands in where no token is left. -/
def none : Token := ⟨.finish, "", ⟨0, 0⟩, 0, [], false⟩

def isMark (t : Token) (text : String) : Bool := t.kind == .mark && t.text == text

def isWord (t : Token) (text : String) : Bool := t.kind == .word && t.text == text

/-- The comments among those given, last first, that stand against something on `row` without an empty line
between; the first doc comment of them counts. -/
def docAbove (row : Nat) (doc : Option String) : List Comment → Option String
  | [] => doc
  | c :: rest =>
    if c.lastRow + 1 < row then doc
    else docAbove c.row (if "/**".toList.isPrefixOf c.text.toList then some c.text else doc) rest

/-- The doc comment in front of what starts with this token. -/
def doc (t : Token) : Option String := docAbove t.row Option.none t.comments.reverse

/-- Does a line end anywhere between the token before and this one? -/
def startsLine (t : Token) : Bool := t.onNewLine || t.comments.any Comment.onNewLine

/-- The comments on the line of the token before. -/
def sameLineComments (t : Token) : List Comment := t.comments.takeWhile fun c => !c.onNewLine

/-- The token without its first comments. -/
def dropComments (n : Nat) (t : Token) : Token := { t with comments := t.comments.drop n }

end Token

end TypeSchema
