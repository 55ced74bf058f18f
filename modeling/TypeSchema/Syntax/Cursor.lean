import TypeSchema.Syntax.Token

namespace TypeSchema

/-- The tokens still to come, and where the last one read ends. -/
structure Cursor where
  tokens : List Token
  stop : Nat := 0

/-- A reader takes tokens or refuses. -/
abbrev Reader (α : Type) := StateT Cursor Option α

namespace Reader

/-- The next token, which stays. -/
def peek : Reader Token := do return (← get).tokens.headD .none

/-- The token after `n` others. -/
def peekAfter (n : Nat) : Reader Token := do return ((← get).tokens.drop n).headD .none

/-- The next token. -/
def next : Reader Token := do
  match ← get with
  | ⟨t :: rest, _⟩ => set (Cursor.mk rest t.span.stop); return t
  | ⟨[], _⟩ => failure

def stop : Reader Nat := do return (← get).stop

/-- From the start of a token to where reading has come. -/
def spanFrom (t : Token) : Reader Span := do return ⟨t.span.start, ← stop⟩

/-- Take the next token if it is that mark. -/
def accept (mark : String) : Reader Bool := do
  if (← peek).isMark mark then do let _ ← next; return true
  else return false

def acceptWord (word : String) : Reader Bool := do
  if (← peek).isWord word then do let _ ← next; return true
  else return false

def expect (mark : String) : Reader Unit := do
  if ← accept mark then return () else failure

def word : Reader Token := do
  let t ← next
  if t.kind = .word then return t else failure

/-- Items as long as `more` says so, at most `n` of them. -/
def repeatUpTo {α : Type} (n : Nat) (more : Reader Bool) (item : Reader α) : Reader (List α) :=
  match n with
  | 0 => return []
  | n + 1 => do
    if ← more then
      let first ← item
      return first :: (← repeatUpTo n more item)
    else return []

/-- Items as long as `more` says so. There are never more than tokens. -/
def repeatWhile {α : Type} (more : Reader Bool) (item : Reader α) : Reader (List α) := do
  repeatUpTo (← get).tokens.length more item

/-- One item or more, with a mark between two. -/
def separated {α : Type} (mark : String) (item : Reader α) : Reader (List α) := do
  let first ← item
  return first :: (← repeatWhile (accept mark) item)

/-- Items with commas between them, a comma after the last allowed, up to the closing mark and with it. -/
def listUntil {α : Type} (close : String) (item : Reader α) : Reader (List α) := do
  let items ← repeatWhile (do return !(← peek).isMark close) do
    let value ← item
    if !(← accept ",") && !(← peek).isMark close then failure
    return value
  expect close
  return items

/-- How a bracket changes the number of open ones. -/
def bracketStep (t : Token) : Int :=
  if t.kind ≠ .mark then 0
  else if ["(", "[", "\x7b", "\x7b|"].contains t.text then 1
  else if [")", "]", "\x7d", "|\x7d"].contains t.text then -1
  else 0

/-- The same for angle brackets, counted along with the others. -/
def angleStep (t : Token) : Int :=
  if t.isMark "<" then 1 else if t.isMark ">" then -1 else bracketStep t

/-- The tokens after the one that closes what the first opens. -/
def afterClosing (step : Token → Int) (depth : Int) : List Token → Option Cursor
  | [] => none
  | t :: rest =>
    if t.kind = .finish then none
    else
      let depth := depth + step t
      if depth ≤ 0 then some ⟨rest, t.span.stop⟩ else afterClosing step depth rest

/-- Pass over brackets and everything in them. -/
def skipBrackets (step : Token → Int) : Reader Unit := do
  match afterClosing step 0 (← get).tokens with
  | some cursor => set cursor
  | none => failure

end Reader

end TypeSchema
