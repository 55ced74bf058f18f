namespace TypeSchema

/-- A range of byte offsets, without its end. -/
structure Span where
  start : Nat
  stop : Nat
deriving DecidableEq, Repr

/-- A byte offset with its line and column, both counted from one; columns count characters. -/
structure Position where
  offset : Nat
  line : Nat
  column : Nat
deriving DecidableEq, Repr

/-- A span with both ends resolved. -/
structure Range where
  start : Position
  stop : Position
deriving DecidableEq, Repr

def byteSize : List Char → Nat
  | [] => 0
  | c :: rest => c.utf8Size + byteSize rest

/-- The first `n` bytes, if they end between two characters. -/
def takeBytes? : Nat → List Char → Option (List Char)
  | 0, _ => some []
  | _ + 1, [] => none
  | n + 1, c :: rest =>
    if c.utf8Size ≤ n + 1 then (takeBytes? (n + 1 - c.utf8Size) rest).map (c :: ·) else none

/-- The text after the first `n` bytes, if they end between two characters. -/
def dropBytes? : Nat → List Char → Option (List Char)
  | 0, s => some s
  | _ + 1, [] => none
  | n + 1, c :: rest => if c.utf8Size ≤ n + 1 then dropBytes? (n + 1 - c.utf8Size) rest else none

/-- The position at which `before` ends. -/
def Position.after (offset : Nat) (before : List Char) : Position where
  offset := offset
  line := before.count '\n' + 1
  column := (before.reverse.takeWhile (· != '\n')).length + 1

/-- The position of an offset. One beyond the end counts as the end, one inside a character is placed at
the end of the text. -/
def Position.at (source : List Char) (offset : Nat) : Position :=
  let offset := min offset (byteSize source)
  .after offset ((takeBytes? offset source).getD source)

def Span.resolve (span : Span) (source : List Char) : Range where
  start := .at source span.start
  stop := .at source span.stop

/-- The text of a span that lies within `source` and cuts no character. -/
def Span.snippet? (span : Span) (source : List Char) : Option String :=
  if span.start ≤ span.stop then
    (dropBytes? span.start source).bind fun rest =>
      (takeBytes? (span.stop - span.start) rest).map String.ofList
  else none

end TypeSchema
