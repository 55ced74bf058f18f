import Mathlib.Algebra.Order.BigOperators.Group.List
import Mathlib.Algebra.Order.Ring.Nat
import Mathlib.Data.List.Induction
import TypeSchema.Proofs.Literals

namespace TypeSchema

/-- The code units of a code point: itself, or two surrogates for one beyond sixteen bits. -/
def unitsOfPoint (n : Nat) : List Nat :=
  if n < 0x10000 then [n] else [0xD800 + (n - 0x10000) / 0x400, 0xDC00 + (n - 0x10000) % 0x400]

/-- The code units that stand for no character by themselves. -/
def isSurrogate (n : Nat) : Bool := decide (0xD800 ≤ n ∧ n ≤ 0xDFFF)

/-- The code units of a text. -/
def unitsOf (s : List Char) : List Nat := s.flatMap fun c => unitsOfPoint c.toNat

/-- Neither the code units of a character nor those of the characters behind it are mistaken for others. -/
theorem unitsOf_injective : Function.Injective unitsOf := by
  intro s
  induction s with
  | nil =>
    intro t h
    cases t with
    | nil => rfl
    | cons d t => simp only [unitsOf, unitsOfPoint, List.flatMap_cons] at h; split at h <;> simp at h
  | cons c s ih =>
    intro t h
    cases t with
    | nil => simp only [unitsOf, unitsOfPoint, List.flatMap_cons] at h; split at h <;> simp at h
    | cons d t =>
      suffices hboth : c.toNat = d.toNat ∧ unitsOf s = unitsOf t by
        rw [Char.toNat_inj.mp hboth.1, ih hboth.2]
      have hc : c.toNat < 0xD800 ∨ 0xDFFF < c.toNat ∧ c.toNat < 0x110000 := c.valid
      have hd : d.toNat < 0xD800 ∨ 0xDFFF < d.toNat ∧ d.toNat < 0x110000 := d.valid
      simp only [unitsOf, List.flatMap_cons, unitsOfPoint] at h ⊢
      split at h <;> split at h <;> simp only [List.cons_append, List.nil_append, List.cons.injEq] at h
      · exact h
      · omega
      · omega
      · exact ⟨by omega, h.2.2⟩

/-- A hexadecimal digit; the letters may be small or capital. -/
structure HexDigit where
  value : Fin 16
  capital : Bool

namespace HexDigit

def char (d : HexDigit) : Char := if d.capital then (Nat.digitChar d.value).toUpper else Nat.digitChar d.value

def number (digits : List HexDigit) : Nat := digits.foldl (fun n d => 16 * n + d.value) 0

/-- What holds of each of the digits. -/
theorem forall_char {p : Fin 16 → Char → Prop} (h : ∀ v capital, p v (HexDigit.char ⟨v, capital⟩)) (d : HexDigit) :
    p d.value d.char :=
  h d.value d.capital

theorem hexValue_char (d : HexDigit) : Quoted.hexValue? d.char = some d.value.val := by
  apply forall_char (p := fun v c => Quoted.hexValue? c = some v.val)
  decide

/-- Digits are not the marks around them. -/
theorem char_ne (d : HexDigit) : d.char ≠ '+' ∧ d.char ≠ '{' ∧ d.char ≠ '}' := by
  apply forall_char (p := fun _ c => c ≠ '+' ∧ c ≠ '{' ∧ c ≠ '}')
  decide

theorem hexNumber_chars (digits : List HexDigit) : Quoted.hexNumber? (digits.map char) = some (number digits) := by
  rw [Quoted.hexNumber?, number]
  generalize 0 = n
  induction digits generalizing n with
  | nil => rfl
  | cons d digits ih =>
    rw [List.map_cons, List.foldlM_cons, hexValue_char]
    exact ih _

theorem number_lt (digits : List HexDigit) : number digits < 16 ^ digits.length := by
  induction digits using List.reverseRecOn with
  | nil => decide
  | append_singleton digits d ih =>
    have := d.value.isLt
    simp only [number, List.foldl_append, List.foldl_cons, List.foldl_nil, List.length_append,
      List.length_singleton] at ih ⊢
    rw [Nat.pow_succ]
    omega

end HexDigit

/-- The line ends of the language. -/
inductive LineEnd
  | feed
  | carriage
  | carriageFeed
  | separator
  | paragraph

def LineEnd.text : LineEnd → List Char
  | .feed => ['\n']
  | .carriage => ['\r']
  | .carriageFeed => ['\r', '\n']
  | .separator => [Char.ofNat 0x2028]
  | .paragraph => [Char.ofNat 0x2029]

/-- What the inside of a literal is put together from. -/
inductive StringPart
  /-- A character that stands for itself. -/
  | char (c : Char)
  /-- A character behind a backslash, which has a meaning of its own or stands for itself. -/
  | escaped (c : Char)
  /-- The escape of the first character of all. -/
  | null
  | byte (a b : HexDigit)
  | unit (a b c d : HexDigit)
  | point (digits : List HexDigit)
  /-- A line end behind a backslash, which is no part of the value. -/
  | continued (lineEnd : LineEnd)

/-- The code points of the characters that have a meaning behind a backslash, and of the others. -/
def escapedPoint (c : Char) : Nat :=
  match c with
  | 'b' => 8
  | 't' => 9
  | 'n' => 10
  | 'v' => 11
  | 'f' => 12
  | 'r' => 13
  | c => c.toNat

namespace StringPart

def text : StringPart → List Char
  | .char c => [c]
  | .escaped c => ['\\', c]
  | .null => ['\\', '0']
  | .byte a b => '\\' :: 'x' :: [a, b].map HexDigit.char
  | .unit a b c d => '\\' :: 'u' :: [a, b, c, d].map HexDigit.char
  | .point digits => '\\' :: 'u' :: '{' :: (digits.map HexDigit.char ++ ['}'])
  | .continued lineEnd => '\\' :: lineEnd.text

/-- The value, in code units. -/
def units : StringPart → List Nat
  | .char c => unitsOfPoint c.toNat
  | .escaped c => unitsOfPoint (escapedPoint c)
  | .null => [0]
  | .byte a b => [HexDigit.number [a, b]]
  | .unit a b c d => [HexDigit.number [a, b, c, d]]
  | .point digits => unitsOfPoint (HexDigit.number digits)
  | .continued _ => []

/-- What may stand between quotes of a kind. Digits up to seven are left out behind a backslash, as are the letters that
open a longer escape. -/
def Valid (quote : Char) : StringPart → Prop
  | .char c => c ≠ quote ∧ c ≠ '\\' ∧ c ≠ '\n' ∧ c ≠ '\r'
  | .escaped c =>
    c ∉ ['0', '1', '2', '3', '4', '5', '6', '7', 'x', 'u', '\n', '\r', Char.ofNat 0x2028, Char.ofNat 0x2029]
  | .point digits => digits ≠ [] ∧ HexDigit.number digits ≤ 0x10FFFF
  | _ => True

/-- A part that is read with its value: no half of a character by its number, no line end but the line feed. -/
def Resolved : StringPart → Prop
  | .unit a b c d => isSurrogate (HexDigit.number [a, b, c, d]) = false
  | .point digits => isSurrogate (HexDigit.number digits) = false
  | .continued lineEnd => lineEnd = .feed
  | _ => True

end StringPart

/-- A string literal. A null escape has no digit behind it, which would make it an octal one. -/
structure StringLiteral where
  quote : Char
  parts : List StringPart
  quoted : quote = '"' ∨ quote = '\''
  valid : ∀ p ∈ parts, p.Valid quote
  notOctal : ∀ before c after, parts = before ++ .null :: .char c :: after → ¬ isDigit c

namespace StringLiteral

def inside (l : StringLiteral) : List Char := l.parts.flatMap StringPart.text

def text (l : StringLiteral) : String := String.ofList (l.quote :: l.inside ++ [l.quote])

/-- The value of a literal, in code units. -/
def units (l : StringLiteral) : List Nat := l.parts.flatMap StringPart.units

end StringLiteral

/-- The character of a code point, unless it is half of one. -/
def charOfPoint (n : Nat) : List Char := if isSurrogate n then [] else [Char.ofNat n]

def StringPart.read : StringPart → List Char
  | .char c => [c]
  | .escaped c => [Char.ofNat (escapedPoint c)]
  | .null => [Char.ofNat 0]
  | .byte a b => charOfPoint (HexDigit.number [a, b])
  | .unit a b c d => charOfPoint (HexDigit.number [a, b, c, d])
  | .point digits => charOfPoint (HexDigit.number digits)
  | .continued .feed => []
  | .continued lineEnd => lineEnd.text

namespace Literal

theorem charOfHex_chars {digits : List HexDigit} (hne : digits ≠ []) (h : HexDigit.number digits ≤ 0x10FFFF) :
    charOfHex (digits.map HexDigit.char) = charOfPoint (HexDigit.number digits) := by
  have hplus : withoutPlus (digits.map HexDigit.char) = digits.map HexDigit.char := by
    cases digits with
    | nil => rfl
    | cons d digits =>
      unfold withoutPlus
      split
      · next heq => exact absurd (List.cons.inj heq).1 d.char_ne.1
      · rfl
  rw [charOfHex, hplus, if_neg (by simpa using hne), HexDigit.hexNumber_chars]
  simp only [charOfPoint, isSurrogate, decide_eq_true_eq]
  split <;> split <;> first | rfl | omega

theorem unescape_braced (digits : List HexDigit) (before rest : List Char) :
    unescape (.braced before) (digits.map HexDigit.char ++ '}' :: rest) =
      charOfHex (before ++ digits.map HexDigit.char) ++ unescape .plain rest := by
  induction digits generalizing before with
  | nil => simp [unescape]
  | cons d digits ih =>
    rw [List.map_cons, List.cons_append, unescape, if_neg d.char_ne.2.2, ih]
    simp

theorem simpleEscape_eq {c : Char} (hnull : c ≠ '0') (hline : c ≠ '\n') :
    simpleEscape c = [Char.ofNat (escapedPoint c)] := by
  unfold escapedPoint
  split <;> first | rfl | simp_all [simpleEscape]

/-- Each part is read by itself. -/
theorem unescape_part {quote : Char} {p : StringPart} (h : p.Valid quote) (rest : List Char) :
    unescape .plain (p.text ++ rest) = p.read ++ unescape .plain rest := by
  cases p with
  | char c => exact unescape_cons h.2.1 rest
  | escaped c =>
    simp only [StringPart.Valid, List.mem_cons, not_or] at h
    obtain ⟨hnull, -, -, -, -, -, -, -, hx, hu, hline, -⟩ := h
    have : unescape .plain ('\\' :: c :: rest) = simpleEscape c ++ unescape .plain rest := by
      rw [unescape, if_pos rfl, unescape, if_neg hx, if_neg hu]
    rw [simpleEscape_eq hnull hline] at this
    exact this
  | null => rfl
  | byte a b =>
    have hlt : HexDigit.number [a, b] < 0x100 := by simpa using HexDigit.number_lt [a, b]
    have hle : HexDigit.number [a, b] ≤ 0x10FFFF := by omega
    change charOfHex ([a, b].map HexDigit.char) ++ unescape .plain rest = _
    rw [charOfHex_chars (List.cons_ne_nil _ _) hle]
    rfl
  | unit a b c d =>
    have hlt : HexDigit.number [a, b, c, d] < 0x10000 := by simpa using HexDigit.number_lt [a, b, c, d]
    have hle : HexDigit.number [a, b, c, d] ≤ 0x10FFFF := by omega
    have hfixed : unescape .unicode (a.char :: ([b, c, d].map HexDigit.char ++ rest)) =
        unescape (.fixed 2 [a.char]) ([b, c, d].map HexDigit.char ++ rest) := if_neg a.char_ne.2.1
    change unescape .unicode (a.char :: ([b, c, d].map HexDigit.char ++ rest)) = _
    rw [hfixed]
    change charOfHex ([a, b, c, d].map HexDigit.char) ++ unescape .plain rest = _
    rw [charOfHex_chars (List.cons_ne_nil _ _) hle]
    rfl
  | point digits =>
    obtain ⟨hne, hle⟩ := h
    change unescape (.braced []) ((digits.map HexDigit.char ++ ['}']) ++ rest) = _
    rw [List.append_assoc, List.singleton_append, unescape_braced, List.nil_append, charOfHex_chars hne hle]
    rfl
  | continued lineEnd => cases lineEnd <;> rfl

theorem unescape_parts {quote : Char} {parts : List StringPart} (h : ∀ p ∈ parts, p.Valid quote) :
    unescape .plain (parts.flatMap StringPart.text) = parts.flatMap StringPart.read := by
  induction parts with
  | nil => rfl
  | cons p parts ih =>
    rw [List.flatMap_cons, List.flatMap_cons, unescape_part (h p List.mem_cons_self),
      ih fun q hq => h q (List.mem_cons_of_mem _ hq)]

theorem unquote_text (l : StringLiteral) : unquote l.text = String.ofList (l.parts.flatMap StringPart.read) := by
  rw [unquote, StringLiteral.text, String.toList_ofList, insideQuotes_quoted l.quoted, StringLiteral.inside,
    unescape_parts l.valid]

end Literal

theorem unitsOfPoint_of_lt {n : Nat} (h : n < 0x10000) : unitsOfPoint n = [n] := if_pos h

theorem unitsOf_singleton (c : Char) : unitsOf [c] = unitsOfPoint c.toNat := by simp [unitsOf]

theorem unitsOf_charOfPoint {n : Nat} (hn : n ≤ 0x10FFFF) (h : isSurrogate n = false) :
    unitsOf (charOfPoint n) = unitsOfPoint n := by
  have hvalid : n.isValidChar := by
    simp only [isSurrogate, decide_eq_false_iff_not] at h
    unfold Nat.isValidChar
    omega
  have hchar : (Char.ofNat n).toNat = n := by
    rw [Char.ofNat, dif_pos hvalid]
    rfl
  rw [charOfPoint, h, if_neg Bool.false_ne_true, unitsOf_singleton, hchar]

theorem ofNat_escapedPoint (c : Char) : (Char.ofNat (escapedPoint c)).toNat = escapedPoint c := by
  unfold escapedPoint
  split <;> first | rfl | rw [Char.ofNat_toNat]

/-- What is read of a part is its value, or nothing of half a character, or a line end without a value. -/
theorem StringPart.read_cases {quote : Char} {p : StringPart} (h : p.Valid quote) :
    (p.Resolved ∧ unitsOf p.read = p.units) ∨
    (¬ p.Resolved ∧ p.read = [] ∧ ∃ n, p.units = [n] ∧ isSurrogate n) ∨
    (¬ p.Resolved ∧ p.units = [] ∧ unitsOf p.read ≠ [] ∧ ∀ u ∈ unitsOf p.read, isSurrogate u = false) := by
  cases p with
  | char c => exact .inl ⟨trivial, unitsOf_singleton c⟩
  | escaped c => exact .inl ⟨trivial, by rw [read, unitsOf_singleton, ofNat_escapedPoint, units]⟩
  | null => exact .inl ⟨trivial, rfl⟩
  | byte a b =>
    have hlt : HexDigit.number [a, b] < 0x100 := by simpa using HexDigit.number_lt [a, b]
    have hwhole : isSurrogate (HexDigit.number [a, b]) = false := by
      simp only [isSurrogate, decide_eq_false_iff_not]
      omega
    refine .inl ⟨trivial, ?_⟩
    rw [read, unitsOf_charOfPoint (by omega) hwhole, unitsOfPoint_of_lt (by omega), units]
  | unit a b c d =>
    have hlt : HexDigit.number [a, b, c, d] < 0x10000 := by simpa using HexDigit.number_lt [a, b, c, d]
    cases hhalf : isSurrogate (HexDigit.number [a, b, c, d]) with
    | false =>
      refine .inl ⟨hhalf, ?_⟩
      rw [read, unitsOf_charOfPoint (by omega) hhalf, unitsOfPoint_of_lt hlt, units]
    | true => exact .inr (.inl ⟨by simp [Resolved, hhalf], if_pos hhalf, _, rfl, hhalf⟩)
  | point digits =>
    cases hhalf : isSurrogate (HexDigit.number digits) with
    | false => exact .inl ⟨hhalf, unitsOf_charOfPoint h.2 hhalf⟩
    | true =>
      have hlt : HexDigit.number digits < 0x10000 := by
        simp only [isSurrogate, decide_eq_true_eq] at hhalf
        omega
      exact .inr (.inl ⟨by simp [Resolved, hhalf], if_pos hhalf, _, unitsOfPoint_of_lt hlt, hhalf⟩)
  | continued lineEnd =>
    cases lineEnd with
    | feed => exact .inl ⟨rfl, rfl⟩
    | carriage | carriageFeed | separator | paragraph =>
      exact .inr (.inr ⟨nofun, rfl, by decide, by decide⟩)

/-- Sums of numbers that are no greater one by one are equal only if the numbers are. -/
theorem eq_of_sum_map_eq {α : Type} {f g : α → Nat} {xs : List α} (hle : ∀ x ∈ xs, f x ≤ g x)
    (hsum : (xs.map f).sum = (xs.map g).sum) : ∀ x ∈ xs, f x = g x := by
  intro x hx
  by_contra hne
  have hlt := List.sum_lt_sum f g hle ⟨x, hx, lt_of_le_of_ne (hle x hx) hne⟩
  omega

/-- If what is read has the value of the whole, then each part is read with its own. Surrogates are counted first:
none of them is read unless its pair is. Then lengths leave no line end over. -/
theorem StringPart.resolved_of_read {quote : Char} {parts : List StringPart} (h : ∀ p ∈ parts, p.Valid quote)
    (heq : unitsOf (parts.flatMap read) = parts.flatMap units) : ∀ p ∈ parts, p.Resolved := by
  have hunits : parts.flatMap (fun p => unitsOf p.read) = parts.flatMap units := by
    rw [← heq, unitsOf, List.flatMap_assoc]
    rfl
  have hhalves : ∀ p ∈ parts, (unitsOf p.read).countP isSurrogate = p.units.countP isSurrogate := by
    apply eq_of_sum_map_eq
    · intro p hp
      rcases read_cases (h p hp) with ⟨-, hread⟩ | ⟨-, hread, -⟩ | ⟨-, hvalue, -, hnone⟩
      · rw [hread]
      · rw [hread]
        exact Nat.zero_le _
      · rw [List.countP_eq_zero.mpr fun u hu => by simp [hnone u hu]]
        exact Nat.zero_le _
    · have := congrArg (List.countP isSurrogate) hunits
      rwa [List.countP_flatMap, List.countP_flatMap] at this
  have hwhole : ∀ p ∈ parts, ¬ (p.read = [] ∧ ∃ n, p.units = [n] ∧ isSurrogate n) := by
    rintro p hp ⟨hread, n, hvalue, hn⟩
    have := hhalves p hp
    rw [hread, hvalue] at this
    simp [unitsOf, hn] at this
  have hlengths : ∀ p ∈ parts, p.units.length = (unitsOf p.read).length := by
    apply eq_of_sum_map_eq
    · intro p hp
      rcases read_cases (h p hp) with ⟨-, hread⟩ | ⟨-, hhalf⟩ | ⟨-, hvalue, -⟩
      · rw [hread]
      · exact absurd hhalf (hwhole p hp)
      · rw [hvalue]
        exact Nat.zero_le _
    · have := congrArg List.length hunits
      rw [List.length_flatMap, List.length_flatMap] at this
      exact this.symm
  intro p hp
  rcases read_cases (h p hp) with ⟨hresolved, -⟩ | ⟨-, hhalf⟩ | ⟨-, hvalue, hne, -⟩
  · exact hresolved
  · exact absurd hhalf (hwhole p hp)
  · have := hlengths p hp
    rw [hvalue] at this
    exact absurd (List.length_eq_zero_iff.mp this.symm) hne

/-- A literal with the value of a text is read as that text, unless it gives a character by two halves or hides another
line end than a line feed. -/
theorem StringLiteral.unquote_eq_iff (l : StringLiteral) (s : String) (hvalue : l.units = unitsOf s.toList) :
    Literal.unquote l.text = s ↔ ∀ p ∈ l.parts, p.Resolved := by
  rw [Literal.unquote_text]
  constructor
  · intro hread
    apply StringPart.resolved_of_read l.valid
    rw [← StringLiteral.units, hvalue, ← hread, String.toList_ofList]
  · intro hresolved
    have hunits : unitsOf (l.parts.flatMap StringPart.read) = unitsOf s.toList := by
      rw [← hvalue, unitsOf, List.flatMap_assoc]
      apply List.flatMap_congr
      intro p hp
      rcases StringPart.read_cases (l.valid p hp) with ⟨-, hread⟩ | ⟨hnot, -⟩ | ⟨hnot, -⟩
      · exact hread
      · exact absurd (hresolved p hp) hnot
      · exact absurd (hresolved p hp) hnot
    rw [unitsOf_injective hunits, String.ofList_toList]

/-- One character as two surrogates, with a small letter in the second. -/
def StringLiteral.halves : StringLiteral where
  quote := '\''
  parts := [.unit ⟨13, true⟩ ⟨8, true⟩ ⟨3, true⟩ ⟨13, true⟩, .unit ⟨13, true⟩ ⟨14, false⟩ ⟨0, true⟩ ⟨0, true⟩]
  quoted := .inr rfl
  valid := by simp [StringPart.Valid]
  notOctal := by
    intro before c after h
    have hmem := congrArg (StringPart.null ∈ ·) h
    simp at hmem

theorem StringLiteral.unquote_eq_iff_halves : halves.text = "'\\uD83D\\uDe00'" ∧
    halves.units = unitsOf [Char.ofNat 0x1F600] ∧ Literal.unquote halves.text ≠ String.ofList [Char.ofNat 0x1F600] := by
  have hvalue : halves.units = unitsOf [Char.ofNat 0x1F600] := by decide
  refine ⟨by decide, hvalue, ?_⟩
  intro hread
  have hall := (unquote_eq_iff halves (String.ofList [Char.ofNat 0x1F600]) hvalue).mp hread
  exact absurd (hall _ List.mem_cons_self) (by simp only [StringPart.Resolved]; decide)

end TypeSchema
