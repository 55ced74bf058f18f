import TypeSchema.Proofs.Literals
import TypeSchema.Proofs.Reads
import TypeSchema.Proofs.Spelling

namespace TypeSchema

/-- One of these marks comes next. -/
def Next (marks : List Mark) (more : List Lexeme) : Prop :=
  ∃ lead m rest, m ∈ marks ∧ more = ⟨lead, .mark m⟩ :: rest

/-- What may come behind a whole type. -/
def typeEnds : List Mark := [.semicolon, .comma, .closeBracket, .closeParen]

/-- What may come behind an operand of a union. -/
def itemEnds : List Mark := .bar :: typeEnds

/-- What may come behind an operand of an intersection. -/
def operandEnds : List Mark := .ampersand :: itemEnds

/-- What may come behind a type that brackets may follow. -/
def primaryEnds : List Mark := .openBracket :: operandEnds

/-- The comment in front of lexemes. -/
def firstDoc (ls : List Lexeme) : Option String := ls.head?.bind (·.lead.doc)

/-- A type that is read for one of the given kind: whatever comment it is given, it is that one with the comment. -/
structure Found (kind : TypeKind) (e : TypeExpr) : Prop where
  doc : e.doc = none
  isOperation : Printer.isOperation e.kind = false
  plain : ∀ doc, ({ e with doc } : TypeExpr).plain = kind.plain (doc.map tidy)

theorem Found.withDoc {kind : TypeKind} {e : TypeExpr} (h : Found kind e) (doc : Option String) :
    (e.withDoc doc).plain = kind.plain (doc.map tidy) := by
  rw [← h.plain doc, TypeExpr.withDoc]
  have := h.isOperation
  split
  · next hk => rw [hk] at this; cases this
  · next hk => rw [hk] at this; cases this
  · rfl

theorem TypeKind.plain_doc {kind : TypeKind} (h : kind.Legible) (doc : Option String) :
    (kind.plain doc).doc = doc ∧ kind.plain doc = { kind.plain none with doc } := by
  cases kind with
  | parenthesized => cases h
  | unsupported => cases h
  | _ => exact ⟨rfl, rfl⟩

open Reader TypeReader

/-- Pairs of brackets. -/
def pairs : Nat → List Lexeme
  | 0 => []
  | n + 1 => ⟨{}, .mark .openBracket⟩ :: ⟨{}, .mark .closeBracket⟩ :: pairs n

/-- A node of the tree is finished where its last token ends. -/
theorem Reads.finish {kind : TypeKind} {t : Token} {more : List Lexeme} {P : TypeExpr → Prop}
    (h : ∀ span, P { kind, span }) : Reads (TypeReader.finish t kind) [] more P :=
  Reads.spanFrom fun span => Reads.pure (h (some span))

theorem Reads.finish_bind {α : Type} {kind : TypeKind} {t : Token} {ls more : List Lexeme} {k : TypeExpr → Reader α}
    {Q : α → Prop} (h : ∀ span, Reads (k { kind, span }) ls more Q) :
    Reads (TypeReader.finish t kind >>= k) ls more Q := by
  rw [TypeReader.finish, bind_assoc]
  exact Reads.spanFrom fun span => h (some span)

section

variable {source : List Char} {nested : Nested} {mayEnd : Bool} {lead : Lead} {more : List Lexeme}

/-- The words with a form of their own. -/
def formWords : List String :=
  ["keyof", "infer", "typeof", "import", "this", "true", "false", "null", "undefined"]

/-- A word without a form of its own is a predefined type or a name. -/
theorem wordType_of_not_mem {t : Token} (h : t.text ∉ formWords) :
    wordType source nested mayEnd t = (do
      let second ← peekAfter 1
      if t.text = "unique" ∧ second.isWord "symbol" then
        let _ ← next
        let _ ← next
        let span ← spanFrom t
        finish t (.unsupported ("predefined_type " ++ slice source span))
      else
        match predefined.find? (·.name == t.text) with
        | some keyword =>
          let _ ← next
          finish t (.keyword keyword)
        | none => reference source nested t) := by
  rw [wordType]
  congr 1
  funext second
  split <;> first | rfl | simp_all [formWords]

theorem primary_keyword {k : Keyword} (hk : k ∈ predefined) (hm : Next primaryEnds more) :
    Reads (primary source nested mayEnd) [⟨lead, .word k.name⟩] more (Found (.keyword k)) := by
  obtain ⟨lead', m, rest, -, rfl⟩ := hm
  have hform : k.name ∉ formWords := by cases k <;> first | decide | exact absurd hk (by decide)
  have hfind : predefined.find? (·.name == k.name) = some k := by
    cases k <;> first | decide | exact absurd hk (by decide)
  rw [primary]
  refine Reads.peek rfl fun t ht => ?_
  have ht' : t.text = k.name := ht.text
  simp only [ht.kind, Atom.kind]
  rw [wordType_of_not_mem (by rwa [ht'])]
  refine Reads.peekAfter (l := ⟨lead', .mark m⟩) rfl fun second hs => ?_
  rw [if_neg (by simp [hs.isWord, Atom.isWord, Atom.kind]), ht', hfind]
  exact Reads.next fun _ _ => Reads.finish fun span => ⟨rfl, rfl, fun doc => rfl⟩

theorem primary_boolean (b : Bool) (hm : Next primaryEnds more) :
    Reads (primary source nested mayEnd) [⟨lead, .word (if b then "true" else "false")⟩] more
      (Found (.literal (.boolean b))) := by
  obtain ⟨lead', m, rest, -, rfl⟩ := hm
  rw [primary]
  refine Reads.peek rfl fun t ht => ?_
  simp only [ht.kind, Atom.kind]
  rw [wordType]
  refine Reads.peekAfter (l := ⟨lead', .mark m⟩) rfl fun second hs => ?_
  simp only [ht.text, Atom.text]
  cases b
  · change Reads (next >>= fun _ => finish t (.literal (.boolean false))) _ _ _
    exact Reads.next fun _ _ => Reads.finish fun span => ⟨rfl, rfl, fun doc => rfl⟩
  · change Reads (next >>= fun _ => finish t (.literal (.boolean true))) _ _ _
    exact Reads.next fun _ _ => Reads.finish fun span => ⟨rfl, rfl, fun doc => rfl⟩

theorem primary_null (hm : Next primaryEnds more) :
    Reads (primary source nested mayEnd) [⟨lead, .word "null"⟩] more (Found (.literal .null)) := by
  obtain ⟨lead', m, rest, -, rfl⟩ := hm
  rw [primary]
  refine Reads.peek rfl fun t ht => ?_
  simp only [ht.kind, Atom.kind]
  rw [wordType]
  refine Reads.peekAfter (l := ⟨lead', .mark m⟩) rfl fun second hs => ?_
  simp only [ht.text, Atom.text]
  change Reads (next >>= fun _ => finish t (.literal .null)) _ _ _
  exact Reads.next fun _ _ => Reads.finish fun span => ⟨rfl, rfl, fun doc => rfl⟩

/-- A plain name, before a mark that neither goes into it nor gives it arguments. -/
theorem reads_reference {name : String} {t : Token} (ht : t.text = name) {m : Mark} {lead' : Lead}
    (hm : m ∈ .openBrace :: primaryEnds) :
    Reads (reference source nested t) [⟨lead, .word name⟩] (⟨lead', .mark m⟩ :: more)
      fun e => ∃ span, e = { kind := .reference name false [], span } := by
  have hdot : (Atom.mark m).isMark "." = false := by revert hm m; decide
  have hangle : (Atom.mark m).isMark "<" = false := by revert hm m; decide
  rw [reference]
  refine Reads.word fun _ _ => ?_
  refine Reads.bind_last (P := (· = [])) (Reads.repeatWhile (Reads.repeatUpTo_stop ?_ rfl)) fun inner hi => ?_
  · exact Reads.not_accepted rfl hdot
  · subst hi
    refine Reads.spanFrom fun span => ?_
    simp only [List.isEmpty_nil, if_true]
    refine Reads.accept_not (l := ⟨lead', .mark m⟩) rfl hangle ?_
    rw [if_neg (by simp), pure_bind]
    exact Reads.finish fun span => ⟨span, by rw [ht]; rfl⟩

theorem found_reference {name : String} {e : TypeExpr} (h : ∃ span, e = { kind := .reference name false [], span }) :
    Found (.reference name false []) e := by
  obtain ⟨span, rfl⟩ := h
  exact ⟨rfl, rfl, fun doc => rfl⟩

theorem reference_name {name : String} {t : Token} (ht : t.text = name) {m : Mark} {lead' : Lead}
    (hm : m ∈ .openBrace :: primaryEnds) :
    Reads (reference source nested t) [⟨lead, .word name⟩] (⟨lead', .mark m⟩ :: more)
      (Found (.reference name false [])) :=
  (reads_reference ht hm).mono fun _ => found_reference

theorem primary_reference {name : String} (hn : isTypeName name) (hm : Next primaryEnds more) :
    Reads (primary source nested mayEnd) [⟨lead, .word name⟩] more
      fun e => ∃ span, e = { kind := .reference name false [], span } := by
  simp only [isTypeName, Bool.and_eq_true, Bool.not_eq_true', List.contains_eq_mem, decide_eq_false_iff_not] at hn
  have hsub : ∀ w ∈ formWords, w ∈ reservedWords := by decide
  have hform : name ∉ formWords := fun h => hn.2 (hsub name h)
  have hfind : predefined.find? (·.name == name) = none := by
    rw [List.find?_eq_none]
    intro k hk heq
    obtain rfl : k.name = name := by simpa using heq
    exact hn.2 (by cases k <;> decide)
  obtain ⟨lead', m, rest, hm', rfl⟩ := hm
  rw [primary]
  refine Reads.peek rfl fun t ht => ?_
  have ht' : t.text = name := ht.text
  simp only [ht.kind, Atom.kind]
  rw [wordType_of_not_mem (by rwa [ht'])]
  refine Reads.peekAfter (l := ⟨lead', .mark m⟩) rfl fun second hs => ?_
  rw [if_neg (by simp [hs.isWord, Atom.isWord, Atom.kind]), ht', hfind]
  exact reads_reference ht' (List.mem_cons_of_mem _ hm')

theorem primary_name {name : String} (hn : isTypeName name) (hm : Next primaryEnds more) :
    Reads (primary source nested mayEnd) [⟨lead, .word name⟩] more (Found (.reference name false [])) :=
  (primary_reference hn hm).mono fun _ => found_reference

theorem primary_string (value : String) :
    Reads (primary source nested mayEnd) [⟨lead, .string value⟩] more (Found (.literal (.string value))) := by
  rw [primary]
  refine Reads.peek rfl fun t ht => ?_
  simp only [ht.kind, Atom.kind]
  refine Reads.next fun _ _ => Reads.finish fun span => ⟨rfl, rfl, fun doc => ?_⟩
  rw [ht.text, Atom.text, Literal.unquote_quote]
  rfl

/-- The digits of an integer are read behind its sign, for the number that the two stand for. -/
theorem primary_digits {n : Int} {value : Number}
    (hvalue : Literal.number? (String.ofList (Number.digits n.natAbs)) (decide (n < 0)) = some value) :
    Reads (primary source nested mayEnd) (literalLexemes lead (.number (.integer n))) more
      (fun e => e.doc = none ∧ e.kind = .literal (.number value)) := by
  rw [literalLexemes, primary]
  split
  · next hneg =>
    rw [decide_eq_true hneg] at hvalue
    refine Reads.peek rfl fun t ht => ?_
    have htext : t.text = "-" := ht.text
    simp only [ht.kind, Atom.kind, htext]
    change Reads (signedNumber source t) _ _ _
    refine Reads.next fun _ _ => Reads.next fun digits hd => ?_
    rw [if_neg (by simp [hd.kind, Atom.kind])]
    refine Reads.spanFrom fun span => Reads.finish fun span => ⟨rfl, ?_⟩
    have hread : Literal.number? digits.text (t.text == "-") = some value := by
      rw [hd.text, htext]
      exact hvalue
    rw [hread]
    rfl
  · next hpos =>
    rw [decide_eq_false hpos] at hvalue
    refine Reads.peek rfl fun t ht => ?_
    simp only [ht.kind, Atom.kind]
    refine Reads.next fun _ _ => Reads.finish fun span => ⟨rfl, ?_⟩
    rw [ht.text, Atom.text, hvalue]
    rfl

theorem primary_number {n : Int} (hn : n.natAbs < Nat.pow 2 63) :
    Reads (primary source nested mayEnd) (literalLexemes lead (.number (.integer n))) more
      (Found (.literal (.number (.integer n)))) := by
  have hvalue : Literal.number? (String.ofList (Number.digits n.natAbs)) (decide (n < 0)) = some (.integer n) := by
    rw [Literal.number_digits hn, Literal.signed_natAbs]
  apply (primary_digits hvalue).mono
  rintro ⟨kind, doc, span⟩ ⟨rfl, rfl⟩
  exact ⟨rfl, rfl, fun doc => rfl⟩

/-- An array of arrays and so on, `n` of them, around a type. -/
def Arrays : Nat → TypeExpr → TypeExpr → Prop
  | 0, e, all => all = e
  | n + 1, e, all => ∃ inner span, Arrays n e inner ∧ all = { kind := .array inner, span }

theorem arrays_succ {n : Nat} {e all : TypeExpr} {span : Option Span}
    (h : Arrays n { kind := .array e, span } all) : Arrays (n + 1) e all := by
  induction n generalizing all with
  | zero => exact ⟨e, span, rfl, h⟩
  | succ n ih =>
    obtain ⟨inner, span', hinner, rfl⟩ := h
    exact ⟨inner, span', ih hinner, rfl⟩

theorem pairs_succ (n : Nat) : pairs (n + 1) = pairs n ++ pairs 1 := by
  induction n with
  | zero => rfl
  | succ n ih => exact congrArg (fun ls => ⟨{}, .mark .openBracket⟩ :: ⟨{}, .mark .closeBracket⟩ :: ls) ih

theorem length_pairs (n : Nat) : n ≤ (pairs n).length := by
  induction n with
  | zero => simp [pairs]
  | succ n ih => simp [pairs]; omega

/-- Brackets are read up to the last, if as many are looked for. -/
theorem brackets_pairs (hm : Next operandEnds more) {start : Token} {c n : Nat} (hc : c ≤ n) (e : TypeExpr) :
    Reads (brackets nested mayEnd start n e) (pairs c) more (Arrays c e) := by
  obtain ⟨lead, m, rest, hm, rfl⟩ := hm
  have hopen : (Atom.mark m).isMark "[" = false := by revert hm m; decide
  induction n generalizing c e with
  | zero =>
    obtain rfl : c = 0 := by omega
    exact Reads.pure rfl
  | succ n ih =>
    rw [brackets]
    cases c with
    | zero =>
      refine Reads.peek (l := ⟨lead, .mark m⟩) rfl fun t ht => ?_
      rw [if_neg (by simp [ht.isMark, hopen])]
      exact Reads.pure rfl
    | succ c =>
      refine Reads.peek rfl fun t ht => ?_
      have hline : t.startsLine = false := ht.startsLine
      rw [if_pos (by simp [ht.isMark, hline]; rfl)]
      refine Reads.next fun _ _ => Reads.accept rfl ?_
      rw [if_pos rfl]
      refine Reads.finish_bind fun span => ?_
      exact Reads.mono (ih (by omega) _) fun _ h => arrays_succ h

/-- May a type start with this? -/
def Atom.startsType : Atom → Bool
  | .word name => name != "new" && name != "readonly"
  | .string _ | .number _ => true
  | .mark m => [Mark.openParen, .openBracket, .openBrace, .minus].contains m
  | .finish => false

/-- The lexemes of a type: behind a word, nothing comes that the word could be read with. -/
def Starts (ls : List Lexeme) : Prop :=
  ∃ l rest, ls = l :: rest ∧ l.atom.startsType ∧ (l.atom.kind = .word → rest = [] ∨ Next primaryEnds rest)

theorem Starts.append {ls ms : List Lexeme} (h : Starts ls) (hm : Next primaryEnds ms) : Starts (ls ++ ms) := by
  obtain ⟨l, rest, rfl, hl, hrest⟩ := h
  refine ⟨l, rest ++ ms, rfl, hl, fun hw => .inr ?_⟩
  rcases hrest hw with rfl | ⟨lead, m, rest, hm, rfl⟩
  · exact hm
  · exact ⟨lead, m, rest ++ ms, hm, rfl⟩

variable (source nested mayEnd) in
/-- Lexemes that are read as a tightly binding type: the part before all brackets is read on its own. -/
def ReadsTight (ls : List Lexeme) (kind : TypeKind) : Prop :=
  ∃ first c P, ls = first ++ pairs c ∧ Starts first ∧
    (∀ more, Next primaryEnds more → Reads (primary source nested mayEnd) first more P) ∧
    ∀ e all, P e → Arrays c e all → Found kind all

theorem ReadsTight.of_primary {ls : List Lexeme} {kind : TypeKind} (hs : Starts ls)
    (h : ∀ more, Next primaryEnds more → Reads (primary source nested mayEnd) ls more (Found kind)) :
    ReadsTight source nested mayEnd ls kind := by
  refine ⟨ls, 0, _, (List.append_nil ls).symm, hs, h, fun e all he hall => ?_⟩
  rwa [show all = e from hall]

theorem ReadsTight.array {ls : List Lexeme} {kind : TypeKind} {span : Option Span}
    (h : ReadsTight source nested mayEnd ls kind) :
    ReadsTight source nested mayEnd (ls ++ pairs 1) (.array ⟨kind, none, span⟩) := by
  obtain ⟨first, c, P, rfl, hs, hfirst, hfound⟩ := h
  refine ⟨first, c + 1, P, by rw [List.append_assoc, ← pairs_succ], hs, hfirst, ?_⟩
  rintro e all he ⟨inner, span', hinner, rfl⟩
  have hf := hfound e inner he hinner
  refine ⟨rfl, rfl, fun doc => ?_⟩
  have hplain : inner.plain = kind.plain none := by
    obtain ⟨inner, doc, span⟩ := inner
    obtain rfl : doc = none := hf.doc
    exact hf.plain none
  simp only [TypeExpr.plain, TypeKind.plain, hplain, Option.map_none]

theorem Next.mono {marks marks' : List Mark} (h : Next marks more) (hsub : ∀ m ∈ marks, m ∈ marks') :
    Next marks' more := by
  obtain ⟨lead, m, rest, hm, rfl⟩ := h
  exact ⟨lead, m, rest, hsub m hm, rfl⟩

/-- A type is read up to the last bracket behind it. -/
theorem Reads.tightType {first : List Lexeme} {c : Nat} {P Q : TypeExpr → Prop}
    (hfirst : ∀ more, Next primaryEnds more → Reads (primary source nested mayEnd) first more P)
    (hfound : ∀ e all, P e → Arrays c e all → Q all) (hm : Next operandEnds more) :
    Reads (tightType source nested mayEnd) (first ++ pairs c) more Q := by
  have hprimary : Next primaryEnds (pairs c ++ more) := by
    cases c with
    | zero => exact hm.mono (by decide)
    | succ c => exact ⟨{}, .openBracket, _, by decide, rfl⟩
  rw [TypeReader.tightType]
  refine Reads.peekAfter_any (n := 0) fun start => Reads.bind (hfirst _ hprimary) fun e he => ?_
  refine Reads.get fun cursor hc => ?_
  have hlength : c ≤ cursor.tokens.length := by
    rw [hc.length_eq, List.length_append]
    exact Nat.le_trans (length_pairs c) (Nat.le_add_right _ _)
  exact Reads.mono (brackets_pairs hm hlength e) fun all hall => hfound e all he hall

theorem ReadsTight.tightType {ls : List Lexeme} {kind : TypeKind} (h : ReadsTight source nested mayEnd ls kind)
    (hm : Next operandEnds more) : Reads (tightType source nested mayEnd) ls more (Found kind) := by
  obtain ⟨first, c, P, rfl, -, hfirst, hfound⟩ := h
  exact Reads.tightType hfirst hfound hm

theorem getElem?_one_of_starts {ls : List Lexeme} (h : Starts ls) (hm : Next operandEnds more) {l : Lexeme}
    (hl : ls.head? = some l) (hw : l.atom.kind = .word) :
    ∃ lead m, m ∈ primaryEnds ∧ (ls ++ more)[1]? = some ⟨lead, .mark m⟩ := by
  obtain ⟨l', rest, rfl, -, hrest⟩ := h
  obtain rfl : l' = l := by simpa using hl
  rcases hrest hw with rfl | ⟨lead, m, rest, hm, rfl⟩
  · obtain ⟨lead, m, rest, hmem, rfl⟩ : Next primaryEnds more := hm.mono (by decide)
    exact ⟨lead, m, hmem, rfl⟩
  · exact ⟨lead, m, hm, rfl⟩

theorem ReadsTight.starts {ls : List Lexeme} {kind : TypeKind} (h : ReadsTight source nested mayEnd ls kind) :
    Starts ls := by
  obtain ⟨first, c, P, rfl, hs, -⟩ := h
  cases c with
  | zero => rwa [pairs, List.append_nil]
  | succ c => exact hs.append ⟨{}, .openBracket, _, by decide, rfl⟩

/-- What printed files do not have is no arrow either. -/
theorem isMark_arrow (a : Atom) : a.isMark "=>" = false := by
  cases a with
  | mark m => cases m <;> decide
  | _ => rfl

theorem isMark_arrow_of_shows {ts : List Token} {ls : List Lexeme} (h : List.Forall₂ Token.Shows ts ls) :
    (ts.headD .none).isMark "=>" = false := by
  cases h with
  | nil => rfl
  | cons h _ => rw [List.headD_cons, h.isMark, isMark_arrow]

theorem shows_afterClosing {step : Token → Int} {depth : Int} {ts : List Token} {ls : List Lexeme} {c : Cursor}
    (hs : List.Forall₂ Token.Shows ts ls) (h : afterClosing step depth ts = some c) :
    ∃ ms, List.Forall₂ Token.Shows c.tokens ms := by
  induction hs generalizing depth with
  | nil => cases h
  | cons _ hrest ih =>
    rw [afterClosing] at h
    split at h
    · cases h
    · simp only at h
      split at h
      · cases h
        exact ⟨_, hrest⟩
      · exact ih h

/-- No function stands in a printed file. -/
theorem Reads.functionAhead {α : Type} {k : Bool → Reader α} {ls more : List Lexeme} {Q : α → Prop} {l : Lexeme}
    (hl : (ls ++ more).head? = some l) (hangle : l.atom.isMark "<" = false) (h : Reads (k false) ls more Q) :
    Reads (TypeReader.functionAhead >>= k) ls more Q := by
  rw [TypeReader.functionAhead, bind_assoc]
  refine Reads.get fun cursor hc => ?_
  rw [bind_assoc]
  refine Reads.peek hl fun t ht => ?_
  rw [if_neg (by simp [ht.isMark, hangle])]
  split
  · split
    · next after hafter =>
      obtain ⟨ms, hms⟩ := shows_afterClosing hc hafter
      rw [isMark_arrow_of_shows hms, pure_bind]
      exact h
    · rwa [pure_bind]
  · rwa [pure_bind]

theorem Atom.isMark_of_startsType {a : Atom} (h : a.startsType) :
    a.isMark "<" = false ∧ a.isMark "|" = false ∧ a.isMark "&" = false ∧ a.isMark "..." = false ∧
      a.isMark "]" = false := by
  cases a with
  | mark m => revert h; cases m <;> decide
  | _ => exact ⟨rfl, rfl, rfl, rfl, rfl⟩

theorem Atom.isWord_of_startsType {a : Atom} (h : a.startsType) :
    a.isWord "new" = false ∧ a.isWord "readonly" = false := by
  cases a with
  | word name => simpa [startsType, Atom.isWord, Atom.kind, Atom.text] using h
  | _ => exact ⟨rfl, rfl⟩

/-- What is read as a type that binds tightly is an operand, with nothing in front of it. -/
theorem Reads.operand {ls : List Lexeme} {P : TypeExpr → Prop} (hstarts : Starts ls) (hm : Next operandEnds more)
    (htight : Reads (TypeReader.tightType source nested mayEnd) ls more P) :
    Reads (operand source nested mayEnd) ls more P := by
  obtain ⟨l, rest, rfl, hl, -⟩ := id hstarts
  obtain ⟨hnew, hreadonly⟩ := Atom.isWord_of_startsType hl
  rw [TypeReader.operand]
  refine Reads.peek rfl fun t ht => Reads.functionAhead rfl (Atom.isMark_of_startsType hl).1 ?_
  rw [if_neg (by simp)]
  by_cases hw : l.atom.kind = .word
  · obtain ⟨lead, m, -, hm⟩ := getElem?_one_of_starts hstarts hm rfl hw
    refine Reads.peekAfter hm fun second hs => ?_
    have hsecond : second.isWord "new" = false := hs.isWord "new"
    rw [if_neg (by simp [ht.isWord, hnew, hsecond]), if_neg (by simp [ht.isWord, hreadonly])]
    exact htight
  · refine Reads.peekAfter_any fun second => ?_
    rw [if_neg (by simp [ht.isWord, Atom.isWord, hw]), if_neg (by simp [ht.isWord, hreadonly])]
    exact htight

theorem ReadsTight.operand {ls : List Lexeme} {kind : TypeKind} (h : ReadsTight source nested mayEnd ls kind)
    (hm : Next operandEnds more) : Reads (operand source nested mayEnd) ls more (Found kind) :=
  Reads.operand h.starts hm (h.tightType hm)

theorem Reads.documented {read : Reader TypeExpr} {ls more : List Lexeme} {P : TypeExpr → Prop} (hs : Starts ls)
    (h : Reads read ls more fun e => P (e.withDoc (firstDoc ls))) : Reads (TypeReader.documented read) ls more P := by
  obtain ⟨l, rest, rfl, -⟩ := hs
  rw [TypeReader.documented]
  refine Reads.peek rfl fun t ht => Reads.bind_last h fun e he => Reads.pure ?_
  rwa [ht.doc]

/-- The lexemes of an operand. -/
abbrev operandLexemes (wraps : TypeKind → Bool) (lead : Lead) (level : Nat) (t : TypeExpr) : List Lexeme :=
  wrappedLexemes (wraps t.kind) (lead.inline level t.doc) fun lead => kindLexemes lead level t.kind

theorem operandsAfterLexemes_cons (operator : Mark) (wraps : TypeKind → Bool) (level : Nat) (t : TypeExpr)
    (rest : List TypeExpr) :
    operandsAfterLexemes operator wraps level (t :: rest) =
      [⟨.space, .mark operator⟩] ++
        (operandLexemes wraps .space level t ++ operandsAfterLexemes operator wraps level rest) := by
  obtain ⟨kind, doc, span⟩ := t
  rw [operandsAfterLexemes]
  rfl

theorem isMark_text (m : Mark) : (Atom.mark m).isMark m.text := by
  simp [Atom.isMark, Atom.kind, Atom.text]

theorem isMark_text_of_ne {m m' : Mark} (h : m ≠ m') : (Atom.mark m).isMark m'.text = false := by
  have : m.text ≠ m'.text := by revert h; cases m <;> cases m' <;> decide
  simp [Atom.isMark, Atom.text, this]

section

variable {operator : Mark} {wraps : TypeKind → Bool} {item : Reader TypeExpr} {ends inside : List Mark} {level : Nat}

/-- Operands behind a first one: the marks before them are none that may end the whole operation. -/
theorem next_operandsAfter (hsub : ∀ m ∈ operator :: ends, m ∈ inside) (rest : List TypeExpr) (hm : Next ends more) :
    Next inside (operandsAfterLexemes operator wraps level rest ++ more) := by
  cases rest with
  | nil => exact hm.mono fun m h => hsub m (List.mem_cons_of_mem _ h)
  | cons t rest => exact ⟨.space, operator, _, hsub _ List.mem_cons_self, by rw [operandsAfterLexemes_cons]; rfl⟩

theorem not_accepted_operator (hop : operator ∉ ends) (hm : Next ends more) :
    Reads (accept operator.text) [] more (· = false) := by
  obtain ⟨lead, m, rest, hm, rfl⟩ := hm
  exact Reads.not_accepted rfl (isMark_text_of_ne fun h => hop (h ▸ hm))

/-- Each of the operands is read for the one that was printed, in whatever sense every operand is. -/
theorem reads_operandsAfter (hop : operator ∉ ends) (hsub : ∀ m ∈ operator :: ends, m ∈ inside) (hm : Next ends more)
    (rest : List TypeExpr) (hs : ∀ t ∈ rest, Starts (operandLexemes wraps .space level t))
    {R : TypeExpr → TypeExpr → Prop}
    (h : ∀ t ∈ rest, ∀ more, Next inside more → Reads item (operandLexemes wraps .space level t) more fun e =>
      R (e.withDoc (firstDoc (operandLexemes wraps .space level t))) t) {n : Nat}
    (hn : (operandsAfterLexemes operator wraps level rest).length ≤ n) :
    Reads (repeatUpTo n (accept operator.text) (documented item)) (operandsAfterLexemes operator wraps level rest) more
      fun es => List.Forall₂ R es rest := by
  induction rest generalizing n with
  | nil => exact Reads.repeatUpTo_stop (not_accepted_operator hop hm) .nil
  | cons t rest ih =>
    rw [operandsAfterLexemes_cons] at hn ⊢
    simp only [List.length_append, List.length_singleton] at hn
    obtain ⟨n, rfl⟩ : ∃ k, n = k + 1 := ⟨n - 1, by omega⟩
    refine Reads.repeatUpTo_step (P := fun e => R e t) (Reads.accepted (isMark_text operator)) ?_
      (ih (fun u hu => hs u (List.mem_cons_of_mem _ hu)) (fun u hu => h u (List.mem_cons_of_mem _ hu)) (by omega)) ?_
    · exact Reads.documented (hs t List.mem_cons_self)
        (h t List.mem_cons_self _ (next_operandsAfter hsub rest hm))
    · intro e es he hes
      exact .cons he hes

theorem isMark_operator_of_startsType {a : Atom} (h : a.startsType) (hop : operator ∈ [Mark.bar, .ampersand]) :
    a.isMark operator.text = false := by
  obtain ⟨-, hbar, hampersand, -⟩ := Atom.isMark_of_startsType h
  rcases List.mem_cons.mp hop with rfl | hop
  · exact hbar
  · obtain rfl := List.mem_singleton.mp hop
    exact hampersand

/-- An operation is read with the value of its first operand, whatever is known of that, and with its other operands. -/
theorem reads_operation (hop : operator ∈ [Mark.bar, .ampersand]) (hends : operator ∉ ends)
    (hsub : ∀ m ∈ operator :: ends, m ∈ inside) (hm : Next ends more) {first : List Lexeme} (hfirst : Starts first)
    {P : TypeExpr → Prop} (hread : ∀ more, Next inside more → Reads item first more P) {rest : List TypeExpr}
    (hne : rest ≠ []) (hs : ∀ t ∈ rest, Starts (operandLexemes wraps .space level t)) {R : TypeExpr → TypeExpr → Prop}
    (h : ∀ t ∈ rest, ∀ more, Next inside more → Reads item (operandLexemes wraps .space level t) more fun e =>
      R (e.withDoc (firstDoc (operandLexemes wraps .space level t))) t)
    {make : List TypeExpr → TypeKind} :
    Reads (operation operator.text make item) (first ++ operandsAfterLexemes operator wraps level rest) more fun e =>
      ∃ e₁ es span, e = { kind := make (e₁ :: es), span } ∧ P e₁ ∧ List.Forall₂ R es rest := by
  obtain ⟨l, ls, rfl, hl, -⟩ := id hfirst
  rw [operation]
  refine Reads.peekAfter_any (n := 0) fun start => Reads.accept_not rfl (isMark_operator_of_startsType hl hop) ?_
  rw [if_neg (by simp)]
  refine Reads.bind (hread _ (next_operandsAfter hsub rest hm)) fun e₁ he₁ => ?_
  refine Reads.bind_last (Reads.repeatWhile (reads_operandsAfter hends hsub hm rest hs h (by simp))) fun es hes => ?_
  have hes' : es.isEmpty = false := by
    cases es with
    | nil =>
      cases rest with
      | nil => exact absurd rfl hne
      | cons t rest => cases hes
    | cons _ _ => rfl
  rw [if_neg (by simp [hes'])]
  exact Reads.finish fun span => ⟨e₁, es, span, rfl, he₁, hes⟩

/-- One operand is itself. -/
theorem reads_operation_one (hop : operator ∈ [Mark.bar, .ampersand]) (hends : operator ∉ ends) (hm : Next ends more)
    {first : List Lexeme} (hfirst : Starts first) {P : TypeExpr → Prop} (hread : Reads item first more P)
    {make : List TypeExpr → TypeKind} : Reads (operation operator.text make item) first more P := by
  obtain ⟨l, ls, rfl, hl, -⟩ := hfirst
  rw [operation]
  refine Reads.peekAfter_any (n := 0) fun start => Reads.accept_not rfl (isMark_operator_of_startsType hl hop) ?_
  rw [if_neg (by simp)]
  refine Reads.bind_last hread fun e he => ?_
  refine Reads.bind_last (P := (· = [])) (Reads.repeatWhile ?_) fun es hes => ?_
  · exact Reads.repeatUpTo_stop (not_accepted_operator hends hm) rfl
  · subst hes
    exact Reads.pure he

end

/-- A whole type is what its union is. -/
theorem Reads.type {ls : List Lexeme} {P : TypeExpr → Prop} (hm : Next typeEnds more)
    (h : Reads (union source nested mayEnd) ls more P) : Reads (TypeReader.type source nested mayEnd) ls more P := by
  obtain ⟨lead, m, rest, -, rfl⟩ := hm
  rw [TypeReader.type]
  refine Reads.peekAfter_any (n := 0) fun start => Reads.bind_last h fun e he => ?_
  refine Reads.peek (l := ⟨lead, .mark m⟩) rfl fun t ht => ?_
  have hextends : t.isWord "extends" = false := ht.isWord "extends"
  rw [if_neg (by simp [hextends])]
  exact Reads.pure he

theorem ReadsTight.intersection {ls : List Lexeme} {kind : TypeKind} (h : ReadsTight source nested mayEnd ls kind)
    (hm : Next itemEnds more) : Reads (intersection source nested mayEnd) ls more (Found kind) :=
  reads_operation_one (show Mark.ampersand ∈ [Mark.bar, .ampersand] by decide) (by decide) hm h.starts
    (h.operand (hm.mono (by decide)))

theorem ReadsTight.type {ls : List Lexeme} {kind : TypeKind} (h : ReadsTight source nested mayEnd ls kind)
    (hm : Next typeEnds more) : Reads (type source nested mayEnd) ls more (Found kind) :=
  Reads.type hm (reads_operation_one (show Mark.bar ∈ [Mark.bar, .ampersand] by decide) (by decide) hm h.starts
    (h.intersection (hm.mono (by decide))))

end

end TypeSchema
