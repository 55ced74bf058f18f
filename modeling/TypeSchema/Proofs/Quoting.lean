import Mathlib.Data.List.Induction
import TypeSchema.Proofs.BracketReading

namespace TypeSchema

namespace Quoted

/-- Beyond the backslash, every character stands for itself. -/
theorem escape_of_le {c : Char} (h : 93 ≤ c.toNat) : escape c = [c] := by
  have hne (d : Char) (hd : d.toNat < 93) : c ≠ d := by
    intro hc
    rw [hc] at h
    omega
  have hlow (n : Nat) (hn : n < 93) : c.toNat ≠ n := by omega
  have hcontrol : ¬ c.toNat < 32 := by omega
  simp [escape, hne, hlow, hcontrol]

/-- What holds of the characters up to the backslash, and of those that stand for themselves, holds of every
character. -/
theorem forall_escape {p : Char → List Char → Prop} (low : ∀ n < 93, p (Char.ofNat n) (escape (Char.ofNat n)))
    (high : ∀ c : Char, 93 ≤ c.toNat → p c [c]) (c : Char) : p c (escape c) := by
  by_cases h : c.toNat < 93
  · have := low c.toNat h
    rwa [Char.ofNat_toNat] at this
  · rw [escape_of_le (Nat.not_lt.mp h)]
    exact high c (Nat.not_lt.mp h)

/-- Escapes are written without control characters. -/
theorem not_control_of_mem_escape {c d : Char} (h : d ∈ escape c) : 32 ≤ d.toNat := by
  have hall : (escape c).all fun d => 32 ≤ d.toNat := by
    apply forall_escape (p := fun _ s => s.all fun d => 32 ≤ d.toNat)
    · decide
    · intro c hc
      simp only [List.all_cons, List.all_nil, Bool.and_true, decide_eq_true_eq]
      omega
  exact of_decide_eq_true (List.all_eq_true.mp hall d h)

/-- Only the escape of a quote holds a quote. -/
theorem not_mem_escape {c : Char} (h : c ≠ '"') : '"' ∉ escape c := by
  revert h
  apply forall_escape (p := fun c s => c ≠ '"' → '"' ∉ s)
  · decide
  · intro c _ hc hd
    exact hc (List.mem_singleton.mp hd).symm

theorem not_control_of_mem_body {s : List Char} {d : Char} (h : d ∈ body s) : 32 ≤ d.toNat := by
  obtain ⟨c, -, hd⟩ := List.mem_flatMap.mp h
  exact not_control_of_mem_escape hd

/-- How many backslashes a text ends with. -/
def trailingBackslashes (s : List Char) : Nat := (s.reverse.takeWhile (· == '\\')).length

theorem trailingBackslashes_concat (s : List Char) (c : Char) :
    trailingBackslashes (s ++ [c]) = if c = '\\' then trailingBackslashes s + 1 else 0 := by
  by_cases h : c = '\\' <;> simp [trailingBackslashes, h]

/-- No other escape ends with a backslash than that of a backslash. -/
theorem getLast?_escape {c : Char} (h : c ≠ '\\') : ∃ t d, escape c = t ++ [d] ∧ d ≠ '\\' := by
  have hlast : (escape c).getLast?.any (· != '\\') := by
    revert h
    apply forall_escape (p := fun c s => c ≠ '\\' → s.getLast?.any (· != '\\'))
    · decide
    · intro c _ hc
      simpa using hc
  obtain ⟨d, hd, hne⟩ := (Option.any_eq_true _ _).mp hlast
  obtain ⟨t, ht⟩ := List.getLast?_eq_some_iff.mp hd
  exact ⟨t, d, ht, by simpa using hne⟩

/-- Backslashes at the end of quoted text come in pairs, one of which escapes the other. -/
theorem trailingBackslashes_body (s : List Char) : trailingBackslashes (body s) % 2 = 0 := by
  induction s using List.reverseRecOn with
  | nil => rfl
  | append_singleton s c ih =>
    rw [show body (s ++ [c]) = body s ++ escape c by simp [body]]
    by_cases hc : c = '\\'
    · have hpair : escape c = ['\\'] ++ ['\\'] := by rw [hc]; rfl
      rw [hpair, ← List.append_assoc, trailingBackslashes_concat, if_pos rfl, trailingBackslashes_concat, if_pos rfl]
      omega
    · obtain ⟨t, d, ht, hd⟩ := getLast?_escape hc
      rw [ht, ← List.append_assoc, trailingBackslashes_concat, if_neg hd]

/-- Where quoted text holds a quote, the text itself holds one. -/
theorem of_body_eq_append {s before rest : List Char} (h : body s = before ++ '"' :: rest) :
    ∃ t, before = body t ++ ['\\'] := by
  induction s generalizing before with
  | nil => simp at h
  | cons c s ih =>
    rw [body_cons] at h
    rcases List.append_eq_append_iff.mp h with ⟨more, rfl, hrest⟩ | ⟨more, hescape, hrest⟩
    · obtain ⟨t, rfl⟩ := ih hrest
      exact ⟨c :: t, by simp⟩
    · cases more with
      | nil =>
        have hempty : body s = [] ++ '"' :: rest := hrest.symm
        obtain ⟨t, ht⟩ := ih hempty
        simp at ht
      | cons d more =>
        obtain ⟨rfl, -⟩ := List.cons.inj hrest
        have hc : c = '"' := by
          by_contra hne
          exact not_mem_escape hne (by simp [hescape])
        have hslash : before ++ '"' :: more = ['\\'] ++ ['"'] := by rw [← hescape, hc]; rfl
        refine ⟨[], ?_⟩
        have hlength := congrArg List.length hslash
        match before with
        | [] => cases hslash
        | [b] => exact congrArg (· :: []) (List.cons.inj hslash).1
        | _ :: _ :: _ => simp at hlength

/-- A quote inside quoted text stands behind an odd number of backslashes, the last of which escapes it. -/
theorem trailingBackslashes_of_body_eq {s before rest : List Char} (h : body s = before ++ '"' :: rest) :
    trailingBackslashes before % 2 = 1 := by
  obtain ⟨t, rfl⟩ := of_body_eq_append h
  have := trailingBackslashes_body t
  rw [trailingBackslashes_concat, if_pos rfl]
  omega

end Quoted

/-- A character of a name without quotes. -/
def isNameChar (c : Char) : Bool := c.isAlphanum || c == '_' || c == '$'

theorem isNameChar_of_isSafeName {name : String} (h : isSafeName name) : ∀ c ∈ name.toList, isNameChar c := by
  unfold isSafeName at h
  split at h
  · cases h
  · next c rest hname =>
    rw [hname]
    simp only [Bool.and_eq_true, Bool.or_eq_true, List.all_eq_true] at h
    intro d hd
    rcases List.mem_cons.mp hd with rfl | hd
    · rcases h.1 with h | h
      · simp [isNameChar, Char.isAlphanum, h]
      · simp [isNameChar, h]
    · simpa [isNameChar] using h.2 d hd

/-- A printed name is one token wherever it stands, as long as something breaks it off. -/
theorem run_propertyName (name : String) {after : List Char} (h : Breaks after) (scan : Lexer.Scan) : ∃ t rest,
    Lexer.run scan ((propertyName name).toList ++ after) = t :: rest ∧ t.kind = (nameAtom name).kind ∧
      t.text = propertyName name := by
  have hatom := Lexer.run_atom (fits_nameAtom name h) scan
  rw [text_nameAtom] at hatom
  exact ⟨_, _, hatom, rfl, text_nameAtom name⟩

theorem TypeReader.peek_bind {α : Type} (k : Token → Reader α) (t : Token) (rest : List Token) (stop : Nat) :
    (Reader.peek >>= k) ⟨t :: rest, stop⟩ = k t ⟨t :: rest, stop⟩ := rfl

theorem TypeReader.next_bind {α : Type} (k : Token → Reader α) (t : Token) (rest : List Token) (stop : Nat) :
    (Reader.next >>= k) ⟨t :: rest, stop⟩ = k t ⟨rest, t.span.stop⟩ := rfl

/-- What comes behind the token of a name does not matter to what is read as the name. -/
theorem TypeReader.memberName_of_token {name : String} {t : Token} (hkind : t.kind = (nameAtom name).kind)
    (htext : t.text = propertyName name) (source : List Char) (rest : List Token) (stop : Nat) :
    memberName source ⟨t :: rest, stop⟩ = some (name, ⟨rest, t.span.stop⟩) := by
  have hmark : t.isMark "[" = false := by
    have := isMark_nameAtom name "["
    rwa [Atom.isMark, ← hkind, text_nameAtom, ← htext] at this
  unfold memberName
  rw [peek_bind, hmark, if_neg Bool.false_ne_true, next_bind]
  cases hsafe : isSafeName name with
  | true =>
    have hword : t.kind = .word := by
      rw [hkind, nameAtom, if_pos hsafe]
      rfl
    rw [propertyName, if_pos hsafe] at htext
    simp only [hword, ← htext]
    rfl
  | false =>
    have hstring : t.kind = .string := by
      rw [hkind, nameAtom, if_neg (by simp [hsafe])]
      rfl
    rw [propertyName, if_neg (by simp [hsafe])] at htext
    have hname : Literal.unquote t.text = name := by rw [htext, Literal.unquote_quote]
    simp only [hstring, hname]
    rfl

/-- The text of a member goes on behind the name with a mark. -/
theorem members_property (level : Nat) (name : String) (optional : Bool) (type : Option TypeExpr) (doc : Option String)
    (span : Option Span) (rest : List Member) : ∃ after : String,
    Printer.members level (.property name optional type doc span :: rest) =
      Printer.blockDoc level doc ++ Printer.indentation level ++ propertyName name ++ after ∧
      ∀ more, Breaks (after.toList ++ more) := by
  have hmark (s : List Char) : Breaks ((if optional then "?" else "").toList ++ ':' :: s) ∧
      Breaks ((if optional then "?" else "").toList ++ ';' :: s) := by
    cases optional <;> exact ⟨breaks_cons (by decide) _, breaks_cons (by decide) _⟩
  cases type with
  | none =>
    refine ⟨(if optional then "?" else "") ++ ";\n" ++ Printer.members level rest, ?_, ?_⟩
    · simp [Printer.members, String.append_assoc]
    · intro more
      simpa using (hmark _).2
  | some t =>
    refine ⟨(if optional then "?" else "") ++ ": " ++ Printer.type level t ++ ";\n" ++ Printer.members level rest, ?_, ?_⟩
    · simp [Printer.members, String.append_assoc]
    · intro more
      simpa using (hmark _).1

/-- Text in quotes is opened and closed by a quote; it stays on one line, every quote in between stands behind an odd
number of backslashes, and it is read as the text it was. The name of a member is printed as one token, wherever the
member stands, and that token is read as the name; without quotes it has the characters of an identifier only. -/
theorem quote_and_propertyName_read_back (value name : String) (level : Nat) (optional : Bool) (type : Option TypeExpr)
    (doc : Option String) (span : Option Span) (members : List Member) :
    (∃ body, (Quoted.quote value).toList = '"' :: body ++ ['"'] ∧ '\n' ∉ body ∧ '\r' ∉ body ∧
      ∀ before rest, body = before ++ '"' :: rest → Quoted.trailingBackslashes before % 2 = 1) ∧
    Literal.unquote (Quoted.quote value) = value ∧
    (isSafeName name → propertyName name = name ∧ ∀ c ∈ name.toList, isNameChar c) ∧
    (¬ isSafeName name → propertyName name = Quoted.quote name) ∧
    ∃ after, Printer.members level (.property name optional type doc span :: members) =
        Printer.blockDoc level doc ++ Printer.indentation level ++ propertyName name ++ after ∧
      ∀ scan more source stop, ∃ t rest,
        Lexer.run scan ((propertyName name).toList ++ (after.toList ++ more)) = t :: rest ∧
        t.text = propertyName name ∧
        TypeReader.memberName source ⟨t :: rest, stop⟩ = some (name, ⟨rest, t.span.stop⟩) := by
  refine ⟨?_, Literal.unquote_quote value, ?_, ?_, ?_⟩
  · have hcontrol {c : Char} (hc : c.toNat < 32) : c ∉ Quoted.body value.toList := by
      intro h
      have := Quoted.not_control_of_mem_body h
      omega
    refine ⟨Quoted.body value.toList, by simp [Quoted.quote], hcontrol (by decide), hcontrol (by decide), ?_⟩
    intro before rest h
    exact Quoted.trailingBackslashes_of_body_eq h
  · intro h
    exact ⟨if_pos h, isNameChar_of_isSafeName h⟩
  · intro h
    exact if_neg h
  · obtain ⟨after, hprinted, hbreaks⟩ := members_property level name optional type doc span members
    refine ⟨after, hprinted, ?_⟩
    intro scan more source stop
    obtain ⟨t, rest, hrun, hkind, htext⟩ := run_propertyName name (hbreaks more) scan
    exact ⟨t, rest, hrun, htext, TypeReader.memberName_of_token hkind htext source rest stop⟩

end TypeSchema
