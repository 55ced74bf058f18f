import TypeSchema.Syntax.Basic
import TypeSchema.Syntax.Cursor
import TypeSchema.Syntax.Literal

namespace TypeSchema

/-- The type with a comment in front of it. In front of a union or an intersection the comment belongs to the first
member. -/
def TypeExpr.withDoc (doc : Option String) (t : TypeExpr) : TypeExpr :=
  match t.kind with
  | .union (first :: rest) =>
    { t with kind := .union ({ first with doc := first.doc.or doc } :: rest) }
  | .intersection (first :: rest) =>
    { t with kind := .intersection ({ first with doc := first.doc.or doc } :: rest) }
  | _ => { t with doc }

namespace TypeReader

open Reader

/-- The readers of the types inside a type. The flag says that the end of a line may end the type. -/
structure Nested where
  /-- Any type. -/
  type : Bool → Reader TypeExpr
  /-- A type that is no operation on others. -/
  operand : Bool → Reader TypeExpr
  /-- A type that binds tightly: no operation, no function. -/
  tight : Bool → Reader TypeExpr

variable (source : List Char) (nested : Nested)

def slice (span : Span) : String := (span.snippet? source).getD ""

/-- What is read, with the comment in front of it. -/
def documented (read : Reader TypeExpr) : Reader TypeExpr := do
  let t ← peek
  return (← read).withDoc t.doc

def finish (start : Token) (kind : TypeKind) : Reader TypeExpr := do
  return { kind, span := ← spanFrom start }

/-- The types that are words of the language. -/
def predefined : List Keyword :=
  [.any, .number, .boolean, .string, .symbol, .void, .unknown, .never, .object]

/-- The type in a predicate, or any other type that a function yields. -/
def returnType (mayEnd : Bool) : Reader Unit := do
  let first ← peek
  let second ← peekAfter 1
  let sameLine := second.kind == .word && !second.startsLine
  if first.isWord "asserts" && sameLine then
    let _ ← next
    let _ ← next
    if ← acceptWord "is" then let _ ← nested.type mayEnd
  else if first.kind == .word && second.isWord "is" && sameLine then
    let _ ← next
    let _ ← next
    let _ ← nested.type mayEnd
  else let _ ← nested.type mayEnd

/-- Parameters of a function, its type parameters in front of them. -/
def parameters : Reader Unit := do
  if (← peek).isMark "<" then skipBrackets angleStep
  if (← peek).isMark "(" then skipBrackets bracketStep else failure

def callSignature : Reader Unit := do
  parameters
  if ← accept ":" then returnType nested true

def functionType (mayEnd : Bool) (start : Token) : Reader TypeExpr := do
  parameters
  expect "=>"
  returnType nested mayEnd
  finish start (.unsupported "function_type")

/-- What a constructor yields is no operation without parentheses. -/
def constructorType (mayEnd : Bool) (start : Token) : Reader TypeExpr := do
  let _ ← acceptWord "abstract"
  let _ ← next
  parameters
  expect "=>"
  let _ ← nested.operand mayEnd
  finish start (.unsupported "constructor_type")

/-- Do parameters and an arrow stand here? -/
def functionAhead : Reader Bool := do
  let tokens := (← get).tokens
  let t ← peek
  if t.isMark "<" then return true
  else if t.isMark "(" then
    match afterClosing bracketStep 0 tokens with
    | some cursor => return (cursor.tokens.headD .none).isMark "=>"
    | none => return false
  else return false

/-- A name with the names inside it, and the arguments it is given. -/
def reference (start : Token) : Reader TypeExpr := do
  let _ ← word
  let inner ← repeatWhile (accept ".") word
  let span ← spanFrom start
  let name := if inner.isEmpty then start.text else slice source span
  let args ← if ← accept "<" then listUntil ">" (documented (nested.type false)) else pure []
  finish start (.reference name (!inner.isEmpty) args)

/-- What `typeof` asks about: a name with its members, or an import. -/
def typeQuery (start : Token) : Reader TypeExpr := do
  let _ ← next
  let _ ← word
  if (← peek).isMark "(" then skipBrackets bracketStep
  let _ ← repeatWhile (accept ".") next
  if (← peek).isMark "<" then skipBrackets angleStep
  finish start (.unsupported "type_query")

def importType (start : Token) : Reader TypeExpr := do
  let _ ← next
  skipBrackets bracketStep
  let _ ← repeatWhile (accept ".") word
  if (← peek).isMark "<" then skipBrackets angleStep
  finish start (.unsupported "member_expression")

/-- A number, its sign in front of it. -/
def signedNumber (start : Token) : Reader TypeExpr := do
  let _ ← next
  let t ← next
  if t.kind ≠ .number then failure
  let span ← spanFrom start
  let value := Literal.number? t.text (start.text == "-")
  finish start (.literal ((value.map .number).getD (.other (slice source span))))

/-- An element of a tuple. A comment in front of a label, of dots or of a type with a question mark stands
outside the type and is lost. -/
def tupleElement : Reader TupleElement := do
  let first ← peek
  if ← accept "..." then
    let label ← peek
    let second ← peekAfter 1
    let third ← peekAfter 2
    let optional := second.isMark "?" && third.isMark ":"
    if label.kind == .word && (second.isMark ":" || optional) then
      let _ ← next
      let _ ← accept "?"
      expect ":"
      let type ← documented (nested.type false)
      return { mark := .rest, type, label := slice source ⟨first.span.stop, label.span.stop⟩ }
    return { mark := .rest, type := ← documented (nested.type false) }
  let second ← peekAfter 1
  let third ← peekAfter 2
  let optional := second.isMark "?" && third.isMark ":"
  if first.kind == .word && (second.isMark ":" || optional) then
    let _ ← next
    let _ ← accept "?"
    expect ":"
    let type ← documented (nested.type false)
    return { mark := if optional then .optional else .required, type, label := first.text }
  let type ← nested.type false
  if ← accept "?" then return { mark := .optional, type }
  return { mark := .required, type := type.withDoc first.doc }

/-- The words that may stand in front of a member. -/
def modifierWords : List String :=
  ["readonly", "static", "public", "private", "protected", "override", "async", "get", "set"]

/-- May a token be the start of a member's name? -/
def startsName (t : Token) : Bool :=
  t.kind == .word || t.kind == .string || t.kind == .number || t.kind == .privateName ||
    t.isMark "[" || t.isMark "*"

/-- Is the next token a modifier of the member behind it? -/
def atModifier : Reader Bool := do
  let t ← peek
  let second ← peekAfter 1
  return t.kind == .word && modifierWords.contains t.text && startsName second && !second.startsLine

/-- The value of an index signature, behind the bracket. -/
def indexValue : Reader TypeExpr := do
  let start ← peek
  if ← accept ":" then documented (nested.type true)
  else
    let form := if start.isMark "-" then "omitting_type_annotation"
      else if start.isMark "+" then "adding_type_annotation" else "opting_type_annotation"
    if start.isMark "-" || start.isMark "+" then let _ ← next
    if ← accept "?" then
      expect ":"
      let _ ← nested.type true
      return (← finish start (.unsupported form)).withDoc start.doc
    else return .keyword .any

def indexSignature (start : Token) : Reader Member := do
  expect "["
  let param ← word
  expect ":"
  let key ← documented (nested.type false)
  expect "]"
  let value ← indexValue nested
  return .index param.text key value start.doc (some (← spanFrom start))

/-- A mapped type is an index signature whose key is no type of this syntax. -/
def mappedType (start : Token) : Reader Member := do
  expect "["
  let _ ← word
  let _ ← word
  let _ ← nested.type false
  if ← acceptWord "as" then let _ ← nested.type false
  expect "]"
  let value ← indexValue nested
  let key ← finish start (.unsupported "mapped_type_clause")
  return .index "" key value start.doc (some (← spanFrom start))

/-- What follows the name of a member. -/
def namedMember (start : Token) (name : String) : Reader Member := do
  let optional ← accept "?"
  let t ← peek
  if t.isMark "<" || (t.isMark "(" && !t.startsLine) then
    callSignature nested
    return .other (some (← spanFrom start))
  let type ← if ← accept ":" then some <$> documented (nested.type true) else pure none
  return .property name optional type start.doc (some (← spanFrom start))

/-- The name of a member: strings without their quotes, anything else as it is written. -/
def memberName : Reader String := do
  let t ← peek
  if t.isMark "[" then
    skipBrackets bracketStep
    return slice source (← spanFrom t)
  let t ← next
  match t.kind with
  | .string => return Literal.unquote t.text
  | .word | .number | .privateName => return t.text
  | _ => failure

def member : Reader Member := do
  let start ← peek
  if (start.isMark "+" || start.isMark "-") && (← peekAfter 1).isWord "readonly" then
    let _ ← next
  let _ ← repeatWhile atModifier next
  let t ← peek
  let second ← peekAfter 1
  let third ← peekAfter 2
  let opensParameters := second.isMark "(" || second.isMark "<"
  if t.isMark "[" && second.kind == .word && third.isMark ":" then indexSignature nested start
  else if t.isMark "[" && second.kind == .word && third.isWord "in" then mappedType nested start
  else if t.isMark "(" || t.isMark "<" || (t.isWord "new" && opensParameters) ||
      (t.isWord "abstract" && second.isWord "new") then
    let _ ← acceptWord "abstract"
    let _ ← acceptWord "new"
    callSignature nested
    return .other (some (← spanFrom start))
  else
    let _ ← accept "*"
    let name ← memberName source
    namedMember nested start name

/-- A member, or one of the marks between members. -/
def memberOrMark : Reader (Option Member) := do
  if (← accept ";") || (← accept ",") then return none
  else return some (← member source nested)

/-- The members up to the closing mark and with it. -/
def members (close : String) : Reader (List Member) := do
  let all ← repeatWhile (do return !(← peek).isMark close) (memberOrMark source nested)
  expect close
  return all.filterMap id

/-- A type that starts with a word. -/
def wordType (mayEnd : Bool) (start : Token) : Reader TypeExpr := do
  let second ← peekAfter 1
  match start.text with
  | "keyof" =>
    let _ ← next
    let _ ← nested.tight mayEnd
    finish start (.unsupported "index_type_query")
  | "infer" =>
    let _ ← next
    let _ ← word
    if ← acceptWord "extends" then let _ ← nested.type mayEnd
    finish start (.unsupported "infer_type")
  | "typeof" => typeQuery start
  | "import" => importType start
  | "this" =>
    let _ ← next
    finish start (.unsupported "this_type")
  | "true" =>
    let _ ← next
    finish start (.literal (.boolean true))
  | "false" =>
    let _ ← next
    finish start (.literal (.boolean false))
  | "null" =>
    let _ ← next
    finish start (.literal .null)
  | "undefined" =>
    let _ ← next
    finish start (.literal (.other "undefined"))
  | text =>
    if text = "unique" ∧ second.isWord "symbol" then
      let _ ← next
      let _ ← next
      let span ← spanFrom start
      finish start (.unsupported ("predefined_type " ++ slice source span))
    else
      match predefined.find? (·.name == text) with
      | some keyword =>
        let _ ← next
        finish start (.keyword keyword)
      | none => reference source nested start

/-- A type without anything behind it. -/
def primary (mayEnd : Bool) : Reader TypeExpr := do
  let t ← peek
  match t.kind with
  | .word => wordType source nested mayEnd t
  | .number =>
    let _ ← next
    finish t (.literal (((Literal.number? t.text false).map .number).getD (.other t.text)))
  | .string =>
    let _ ← next
    finish t (.literal (.string (Literal.unquote t.text)))
  | .template =>
    let _ ← next
    finish t (.unsupported "template_literal_type")
  | .mark =>
    match t.text with
    | "-" | "+" => signedNumber source t
    | "(" =>
      let _ ← next
      let inner ← documented (nested.type false)
      expect ")"
      finish t (.parenthesized inner)
    | "[" =>
      let _ ← next
      let elements ← listUntil "]" (tupleElement source nested)
      finish t (.tuple elements)
    | "\x7b" =>
      let _ ← next
      finish t (.object (← members source nested "\x7d"))
    | "\x7b|" =>
      let _ ← next
      finish t (.object (← members source nested "|\x7d"))
    | "?" =>
      let _ ← next
      let _ ← nested.tight mayEnd
      finish t (.unsupported "flow_maybe_type")
    | "*" =>
      let _ ← next
      finish t (.unsupported "existential_type")
    | _ => failure
  | _ => failure

/-- The brackets behind a type, at most `n` of them: each makes an array of it or looks something up in it. -/
def brackets (mayEnd : Bool) (start : Token) : Nat → TypeExpr → Reader TypeExpr
  | 0, type => return type
  | n + 1, type => do
    let t ← peek
    if t.isMark "[" && !(mayEnd && t.startsLine) then
      let _ ← next
      if ← accept "]" then
        brackets mayEnd start n (← finish start (.array type))
      else
        let _ ← nested.type false
        expect "]"
        brackets mayEnd start n (← finish start (.unsupported "lookup_type"))
    else return type

def tightType (mayEnd : Bool) : Reader TypeExpr := do
  let start ← peek
  let type ← primary source nested mayEnd
  brackets nested mayEnd start (← get).tokens.length type

/-- An operand of an intersection. Functions and `readonly` reach over all operators behind them. -/
def operand (mayEnd : Bool) : Reader TypeExpr := do
  let start ← peek
  if ← functionAhead then functionType nested mayEnd start
  else if start.isWord "new" || (start.isWord "abstract" && (← peekAfter 1).isWord "new") then
    constructorType nested mayEnd start
  else if start.isWord "readonly" then
    let _ ← next
    let _ ← nested.type mayEnd
    finish start (.unsupported "readonly_type")
  else tightType source nested mayEnd

/-- Operands with a mark between two, and perhaps one in front. One operand without a mark is itself. -/
def operation (mark : String) (make : List TypeExpr → TypeKind) (item : Reader TypeExpr) :
    Reader TypeExpr := do
  let start ← peek
  let marked ← accept mark
  let first ← if marked then documented item else item
  let rest ← repeatWhile (accept mark) (documented item)
  if !marked && rest.isEmpty then return first
  else finish start (make (first :: rest))

def intersection (mayEnd : Bool) : Reader TypeExpr :=
  operation "&" .intersection (operand source nested mayEnd)

def union (mayEnd : Bool) : Reader TypeExpr :=
  operation "|" .union (intersection source nested mayEnd)

/-- Any type. One that is asked whether it extends another is no type of this syntax. -/
def type (mayEnd : Bool) : Reader TypeExpr := do
  let start ← peek
  let left ← union source nested mayEnd
  let t ← peek
  if t.isWord "extends" && !(mayEnd && t.startsLine) then
    let _ ← next
    let _ ← nested.type mayEnd
    expect "?"
    let _ ← nested.type mayEnd
    expect ":"
    let _ ← nested.type mayEnd
    finish start (.unsupported "conditional_type")
  else return left

/-- The readers of types that stand inside one another at most so deep. -/
def within (source : List Char) : Nat → Nested
  | 0 => ⟨fun _ => failure, fun _ => failure, fun _ => failure⟩
  | depth + 1 =>
    let nested := within source depth
    ⟨type source nested, operand source nested, tightType source nested⟩

end TypeReader

end TypeSchema
