import TypeSchema.Syntax.TypeReader

namespace TypeSchema

namespace FileReader

open Reader TypeReader

/-- The marks at the start of a line that continue the statement before. -/
def continuesLine (t : Token) : Bool :=
  t.kind == .mark &&
    (t.text.toList.head?.any fun c => ",.;*%>=<?^|&/:".toList.contains c)

/-- Does a statement end before this token without a semicolon? -/
def endsStatement (t : Token) : Bool :=
  t.kind == .finish || t.isMark "\x7d" || (t.startsLine && !continuesLine t)

/-- Take the comments that stand on the line of the last token: they belong to the statement that it ends. -/
def takeLineComments : Reader Unit := do
  let cursor ← get
  match cursor.tokens with
  | t :: rest =>
    let comments := t.sameLineComments
    match comments.getLast? with
    | some last => set (Cursor.mk (t.dropComments comments.length :: rest) last.span.stop)
    | none => return ()
  | [] => return ()

/-- The end of a block, where a line break may stand for a semicolon. -/
def endBlock : Reader Unit := do
  if endsStatement (← peek) then takeLineComments

/-- The end of a statement: a semicolon, or a line break that stands for one. -/
def endStatement : Reader Unit := do
  if ← accept ";" then return ()
  endBlock

/-- May an expression, or the type of a value, end with a token? -/
def endsExpression (t : Token) : Bool :=
  t.kind != .mark || [")", "]", "\x7d", "++", "--", "!", ">"].contains t.text

/-- The marks and words at the start of a line that continue an expression. -/
def continuesExpression (t : Token) : Bool :=
  (continuesLine t) || t.isMark "(" || t.isMark "[" || t.isMark "+" || t.isMark "-" || t.isWord "in" ||
    t.isWord "instanceof"

/-- Pass over an expression or a declaration of values, from its second token on. -/
def skipExpression : Nat → Token → Reader Unit
  | 0, _ => failure
  | fuel + 1, last => do
    let t ← peek
    if t.kind = .finish ∨ t.isMark ";" ∨ bracketStep t < 0 then return ()
    else if t.startsLine && endsExpression last && !continuesExpression t then return ()
    else if 0 < bracketStep t then
      skipBrackets bracketStep
      skipExpression fuel { t with text := ")" }
    else
      let _ ← next
      skipExpression fuel t

/-- Pass over everything before the next brace or semicolon, and over the braces. Angle brackets may hold braces
of their own. -/
def skipToBlock : Nat → Reader Unit
  | 0 => failure
  | fuel + 1 => do
    let t ← peek
    if t.isMark "\x7b" then skipBrackets bracketStep
    else if t.kind = .finish ∨ t.isMark ";" ∨ t.isMark "\x7d" then return ()
    else if 0 < angleStep t then
      skipBrackets angleStep
      skipToBlock fuel
    else
      let _ ← next
      skipToBlock fuel

/-- Pass over a namespace or module, with its name and its block if it has one. -/
def skipModule : Reader Unit := do
  let _ ← next
  let _ ← repeatWhile (do
    let t ← peek
    return (t.kind == .string || t.kind == .word || t.isMark ".") && !t.startsLine) next
  if (← peek).isMark "\x7b" then skipBrackets bracketStep
  endBlock

/-- Pass over a function: its signature, and its body if it has one. -/
def skipFunction (nested : Nested) : Reader Unit := do
  let _ ← repeatWhile (do
    let t ← peek
    return t.kind == .word || t.isMark "*") next
  callSignature nested
  let t ← peek
  if t.isMark "\x7b" then
    skipBrackets bracketStep
    endBlock
  else endStatement

/-- Pass over a statement that declares no type. The fuel bounds the statements inside it. -/
def skipStatement (nested : Nested) : Nat → Reader Unit
  | 0 => failure
  | fuel + 1 => do
    let t ← peek
    let second ← peekAfter 1
    let length := (← get).tokens.length
    let body := skipStatement nested fuel
    let opensStatement := (second.kind == .word || second.kind == .string || second.isMark "\x7b") &&
      !second.startsLine
    let condition : Reader Unit := do
      let _ ← repeatWhile (do return (← peek).kind == .word) next
      skipBrackets bracketStep
    if t.isMark ";" then let _ ← next
    else if t.isMark "\x7b" then
      skipBrackets bracketStep
      endBlock
    else if t.isWord "abstract" && second.isWord "class" then skipToBlock length
    else if t.isWord "export" || t.isWord "default" || (t.isWord "declare" && opensStatement) then
      let _ ← next
      if second.isMark "\x7b" || second.isMark "=" || second.isMark "*" then
        skipExpression length t
        endStatement
      else body
    else if t.isMark "@" then
      let _ ← next
      let _ ← repeatWhile (accept ".") word
      let _ ← word
      if (← peek).isMark "(" then skipBrackets bracketStep
      body
    else if t.isWord "class" then
      skipToBlock length
      endBlock
    else if t.isWord "enum" || (t.isWord "const" && second.isWord "enum") then skipToBlock length
    else if t.isWord "function" || (t.isWord "async" && second.isWord "function") then
      skipFunction nested
    else if (t.isWord "module" || t.isWord "global" || t.isWord "namespace") && opensStatement then skipModule
    else if t.isWord "if" then
      condition
      body
      if ← acceptWord "else" then body
    else if t.isWord "for" || t.isWord "while" || t.isWord "with" then
      condition
      body
    else if t.isWord "switch" then
      condition
      skipBrackets bracketStep
    else if t.isWord "try" then
      let _ ← next
      skipBrackets bracketStep
      if ← acceptWord "catch" then
        if (← peek).isMark "(" then skipBrackets bracketStep
        skipBrackets bracketStep
      if ← acceptWord "finally" then skipBrackets bracketStep
      endBlock
    else if t.isWord "do" then
      let _ ← next
      body
      condition
      endStatement
    else if t.kind == .word && second.isMark ":" then
      let _ ← next
      let _ ← next
      body
    else if 0 < bracketStep t then
      skipBrackets bracketStep
      skipExpression length { t with text := ")" }
      endStatement
    else
      let t ← next
      skipExpression length t
      endStatement

/-- A type parameter, known by its name. -/
def typeParam (nested : Nested) : Reader String := do
  let _ ← repeatWhile (do
    let second ← peekAfter 1
    return second.kind == .word && !second.isWord "extends") word
  let name ← word
  if ← acceptWord "extends" then let _ ← nested.type false
  if ← accept "=" then let _ ← nested.type false
  return name.text

def typeParams (nested : Nested) : Reader (List String) := do
  if ← accept "<" then listUntil ">" (typeParam nested) else return []

/-- The words in front of a declaration. -/
structure Modifiers where
  exported : Bool := false
  declare : Bool := false

/-- An interface, from its name on. -/
def interface (source : List Char) (nested : Nested) (start : Token) (m : Modifiers) :
    Reader Statement := do
  let name ← word
  let typeParams ← typeParams nested
  let parent : Reader TypeExpr := documented do reference source nested (← peek)
  let heritage ← if ← acceptWord "extends" then separated "," parent else pure []
  let close := if (← peek).isMark "\x7b|" then "|\x7d" else "\x7d"
  if !(← accept "\x7b") && !(← accept "\x7b|") then failure
  let members ← members source nested close
  return .interface {
    name := name.text, exported := m.exported, declare := m.declare, typeParams, heritage, members
    doc := start.doc, span := some (← spanFrom start) }

/-- An alias, from its name on. -/
def typeAlias (nested : Nested) (start : Token) (m : Modifiers) : Reader Statement := do
  let name ← word
  let typeParams ← typeParams nested
  expect "="
  let value ← documented (nested.type true)
  endStatement
  return .typeAlias {
    name := name.text, exported := m.exported, declare := m.declare, typeParams, value
    doc := start.doc, span := some (← spanFrom start) }

/-- A namespace, from its name on. -/
def namespaced (body : Reader (List Statement)) (start : Token) (m : Modifiers) :
    Reader Statement := do
  let path ← separated "." word
  let inner ← if ← accept "\x7b" then
      let inner ← body
      expect "\x7d"
      pure inner
    else pure []
  endBlock
  return .namespaced (path.map Token.text) m.exported inner (some (← spanFrom start))

/-- The words in front of a declaration, up to the one that says what it declares. A word at the end of a line
is no modifier of what stands on the next. -/
def modifiers : Reader Modifiers := do
  let exported ← acceptWord "export"
  if exported && (← peek).isWord "default" && (← peekAfter 1).isWord "interface" then
    let _ ← next
  let second ← peekAfter 1
  let declare := (← peek).isWord "declare" && second.kind == .word && !second.startsLine
  if declare then let _ ← next
  return { exported, declare }

/-- The statement that declares a type or holds declarations of types. -/
def declaration (source : List Char) (nested : Nested) (body : Reader (List Statement)) :
    Reader Statement := do
  let start ← peek
  let m ← modifiers
  let t ← next
  let name ← peek
  if name.kind ≠ .word then failure
  if t.isWord "interface" then interface source nested start m
  else if name.startsLine then failure
  else if t.isWord "type" then typeAlias nested start m
  else if t.isWord "namespace" || t.isWord "module" then namespaced body start m
  else failure

/-- A statement, if it declares a type. A closing bracket that opens nowhere is passed over. -/
def statement? (source : List Char) (nested : Nested) (body : Reader (List Statement)) :
    Reader (Option Statement) :=
  some <$> declaration source nested body <|>
  (do
    let before := (← get).tokens.length
    skipStatement nested before
    if (← get).tokens.length < before then return none else failure) <|>
  (do let _ ← next; return none)

/-- The statements of a block or a file. -/
def statements (source : List Char) (nested : Nested) (body : Reader (List Statement))
    (atEnd : Token → Bool) : Reader (List Statement) := do
  let all ← repeatWhile (do return !atEnd (← peek)) (statement? source nested body)
  return all.filterMap id

/-- The statements of a block that holds blocks at most so deep. -/
def block (source : List Char) (nested : Nested) : Nat → Reader (List Statement)
  | 0 => failure
  | depth + 1 =>
    statements source nested (block source nested depth) fun t =>
      t.kind == .finish || t.isMark "\x7d"

end FileReader

/-- The declarations of a text. -/
def SourceFile.ofText (source : String) : SourceFile :=
  let tokens := Lexer.tokens source
  let s := source.toList
  let nested := TypeReader.within s tokens.length
  let file := FileReader.statements s nested (FileReader.block s nested tokens.length)
    fun t => t.kind == .finish
  match file ⟨tokens, 0⟩ with
  | some (statements, _) => ⟨statements⟩
  | none => ⟨[]⟩

end TypeSchema
