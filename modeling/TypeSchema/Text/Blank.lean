namespace TypeSchema

/-- The code points with the Unicode property `White_Space`. -/
def blankCodes : List Nat :=
  [0x09, 0x0A, 0x0B, 0x0C, 0x0D, 0x20, 0x85, 0xA0, 0x1680, 0x2000, 0x2001, 0x2002, 0x2003, 0x2004,
    0x2005, 0x2006, 0x2007, 0x2008, 0x2009, 0x200A, 0x2028, 0x2029, 0x202F, 0x205F, 0x3000]

def isBlank (c : Char) : Bool := blankCodes.contains c.toNat

def trimStart (s : List Char) : List Char := s.dropWhile isBlank

def trimEnd (s : List Char) : List Char := (s.reverse.dropWhile isBlank).reverse

def trim (s : List Char) : List Char := trimEnd (trimStart s)

/-- The text without blanks at either end. -/
def trimmed (s : String) : String := String.ofList (trim s.toList)

/-- A line as it is kept, from its characters in reverse: one carriage return before the line feed is
part of the line break. -/
def lineOfReversed : List Char → List Char
  | '\r' :: line => line.reverse
  | line => line.reverse

/-- The lines of a text whose current line is `line` in reverse. -/
def linesFrom (line : List Char) : List Char → List (List Char)
  | [] => if line.isEmpty then [] else [line.reverse]
  | '\n' :: rest => lineOfReversed line :: linesFrom [] rest
  | c :: rest => linesFrom (c :: line) rest

/-- The lines of a text. A line feed ends a line, so no empty line follows the last one. -/
def lines (s : List Char) : List (List Char) := linesFrom [] s

/-- The texts with `separator` between them. -/
def joinWith (separator : List Char) : List (List Char) → List Char
  | [] => []
  | [s] => s
  | s :: rest => s ++ separator ++ joinWith separator rest

def joinTexts (separator : String) (texts : List String) : String :=
  String.ofList (joinWith separator.toList (texts.map String.toList))

/-- The text after `skip` more characters, with every occurrence of `old` in it replaced. -/
def replaceFrom (old new : List Char) : Nat → List Char → List Char
  | _, [] => []
  | skip + 1, _ :: rest => replaceFrom old new skip rest
  | 0, c :: rest =>
    if !old.isEmpty && old.isPrefixOf (c :: rest) then
      new ++ replaceFrom old new (old.length - 1) rest
    else c :: replaceFrom old new 0 rest

/-- Every occurrence of `old` becomes `new`, from left to right and without overlap. -/
def replaceAll (old new s : List Char) : List Char := replaceFrom old new 0 s

end TypeSchema
