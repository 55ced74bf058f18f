import TypeSchema.Json.Parser

namespace TypeSchema.Json

/-- The rest after the closing quote of a text. -/
def skipString? : List Char → Option (List Char)
  | [] => none
  | '"' :: rest => some rest
  | '\\' :: 'u' :: a :: b :: c :: d :: rest =>
    if (Quoted.hexNumber? [a, b, c, d]).isSome then skipString? rest else none
  | '\\' :: c :: rest => if (shortEscape? c).isSome then skipString? rest else none
  | c :: rest => if c.toNat < 32 ∨ c = '\\' then none else skipString? rest

mutual

/-- The rest after a value. The fuel bounds the number of steps. -/
def skipValue? : Nat → List Char → Option (List Char)
  | 0, _ => none
  | fuel + 1, s =>
    match skipGap s with
    | '"' :: rest => skipString? rest
    | '[' :: rest =>
      match skipGap rest with
      | ']' :: rest => some rest
      | rest => skipItems? fuel rest
    | '{' :: rest =>
      match skipGap rest with
      | '}' :: rest => some rest
      | rest => skipFields? fuel rest
    | c :: rest =>
      if c = '-' ∨ isDigit c then (readNumberText? (c :: rest)).map Prod.snd
      else (readWord? (c :: rest)).map Prod.snd
    | [] => none

/-- The rest after one item or more and the closing bracket. -/
def skipItems? : Nat → List Char → Option (List Char)
  | 0, _ => none
  | fuel + 1, s => do
    match skipGap (← skipValue? fuel s) with
    | ',' :: rest => skipItems? fuel rest
    | ']' :: rest => some rest
    | _ => none

/-- The rest after one field or more and the closing brace. -/
def skipFields? : Nat → List Char → Option (List Char)
  | 0, _ => none
  | fuel + 1, s =>
    match skipGap s with
    | '"' :: rest => do
      match skipGap (← skipString? rest) with
      | ':' :: rest =>
        match skipGap (← skipValue? fuel rest) with
        | ',' :: rest => skipFields? fuel rest
        | '}' :: rest => some rest
        | _ => none
      | _ => none
    | _ => none

end

/-- One field or more, up to the closing brace. No values are made of those beside `names`, so that numbers beyond
every bound and halves of surrogate pairs may stand in them. -/
def readSelected? (names : List String) : Nat → List Char → Option (List (String × Json) × List Char)
  | 0, _ => none
  | fuel + 1, s =>
    match skipGap s with
    | '"' :: rest => do
      let (name, rest) ← readString? rest
      match skipGap rest with
      | ':' :: rest =>
        let (value, rest) ←
          if names.contains (String.ofList name) then readValue? fuel (depthLimit - 1) rest
          else (skipValue? fuel rest).map (null, ·)
        match skipGap rest with
        | ',' :: rest =>
          let (fields, rest) ← readSelected? names fuel rest
          some ((String.ofList name, value) :: fields, rest)
        | '}' :: rest => some ([(String.ofList name, value)], rest)
        | _ => none
      | _ => none
    | _ => none

/-- The value that a text holds; of the fields of an object only the named ones matter. -/
def parseSelected? (names : List String) (text : String) : Option Json :=
  match skipGap text.toList with
  | '{' :: rest =>
    if (skipGap rest).head? = some '}' then parse? text
    else do
      let (fields, rest) ← readSelected? names (rest.length + 1) rest
      if (skipGap rest).isEmpty then some (object fields) else none
  | _ => parse? text

end TypeSchema.Json
