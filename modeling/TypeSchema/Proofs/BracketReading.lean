import TypeSchema.Proofs.NestedReading

namespace TypeSchema

open Reader TypeReader

variable {source : List Char} {lead : Lead} {level depth : Nat} {more : List Lexeme}

/-- Is what closes still to come? -/
abbrev notClosed (close : String) : Reader Bool := do return !(← peek).isMark close

/-- An item of a list with the comma behind it. -/
abbrev listItem {α : Type} (close : String) (item : Reader α) : Reader α := do
  let value ← item
  if !(← accept ",") && !(← peek).isMark close then failure
  return value

section

variable {α : Type} {close : String} {item : Reader α} {ls ms : List Lexeme} {l : Lexeme} {n : Nat}
  {P : α → Prop} {R R' : List α → Prop}

theorem reads_notClosed (hl : more.head? = some l) : Reads (notClosed close) [] more (· = !l.atom.isMark close) := by
  refine Reads.peek_more hl fun t ht => Reads.pure ?_
  rw [ht.isMark]

theorem reads_until_stop (hclose : l.atom.isMark close) (hr : R []) :
    Reads (repeatUpTo n (notClosed close) item) [] (l :: more) R := by
  refine Reads.repeatUpTo_stop ((reads_notClosed rfl).mono fun b hb => ?_) hr
  rw [hb, hclose]
  rfl

/-- One item more, up to what closes. -/
theorem reads_until_step (hl : (ls ++ ms ++ more).head? = some l) (hopen : l.atom.isMark close = false)
    (hi : Reads item ls (ms ++ more) P) (hr : Reads (repeatUpTo n (notClosed close) item) ms more R)
    (hcons : ∀ a as, P a → R as → R' (a :: as)) :
    Reads (repeatUpTo (n + 1) (notClosed close) item) (ls ++ ms) more R' := by
  refine Reads.repeatUpTo_next ((reads_notClosed hl).mono fun b hb => ?_) hi hr hcons
  rw [hb, hopen]
  rfl

/-- An item before a comma. -/
theorem reads_item_comma (h : Reads item ls (⟨{}, .mark .comma⟩ :: more) P) :
    Reads (listItem close item) (ls ++ [⟨{}, .mark .comma⟩]) more P :=
  Reads.bind h fun _ hv => Reads.accept rfl (Reads.peekAfter_any (n := 0) fun _ => Reads.pure hv)

/-- An item before the closing mark, which stays. -/
theorem reads_item_last (hclose : l.atom.isMark close) (hcomma : l.atom.isMark "," = false)
    (h : Reads item ls (l :: more) P) : Reads (listItem close item) ls (l :: more) P := by
  refine Reads.bind_last h fun value hv => Reads.accept_not rfl hcomma (Reads.peek rfl fun t ht => ?_)
  rw [ht.isMark, hclose]
  exact Reads.pure hv

theorem reads_listUntil (hclose : l.atom.isMark close)
    (h : Reads (repeatUpTo (ls ++ l :: more).length (notClosed close) (listItem close item)) ls (l :: more) R) :
    Reads (listUntil close item) (ls ++ [l]) more R :=
  Reads.bind (Reads.repeatWhile h) fun _ hr => Reads.expect hclose (Reads.pure hr)

end

/-- What may come behind an element. -/
def elementEnds : List Mark := [.comma, .closeBracket]

/-- An element that is read wherever it is printed. -/
structure ReadableElement (source : List Char) (e : TupleElement) : Prop where
  mark : e.mark ≠ .optional
  label : e.label = none
  doc : e.type.doc = none
  readable : Readable source e.type.kind

theorem elementLexemes_eq (lead : Lead) (level : Nat) (e : TupleElement) :
    elementLexemes lead level e =
      if e.mark = .rest then ⟨lead, .mark .dots⟩ :: kindLexemes {} level e.type.kind
      else kindLexemes lead level e.type.kind := by
  obtain ⟨mark, ⟨kind, doc, span⟩, label⟩ := e
  rw [elementLexemes]

theorem Starts.head {ls : List Lexeme} (h : Starts ls) :
    ∃ l, (∀ more, (ls ++ more).head? = some l) ∧ l.atom.startsType ∧ firstDoc ls = l.lead.doc := by
  obtain ⟨l, rest, rfl, hl, -⟩ := h
  exact ⟨l, fun _ => rfl, hl, rfl⟩

/-- Behind a word at the start of a type, nothing says that the word is a label. -/
theorem Reads.not_label {α : Type} {ls : List Lexeme} (hs : Starts ls) (hm : Next operandEnds more) {l : Lexeme}
    (hl : ls.head? = some l) {first : Token} (hfirst : first.Shows l) {k : Token → Token → Reader α}
    {Q : α → Prop}
    (h : ∀ second third : Token,
      (first.kind == .word && (second.isMark ":" || (second.isMark "?" && third.isMark ":"))) = false →
      Reads (k second third) ls more Q) :
    Reads (Reader.peekAfter 1 >>= fun second => Reader.peekAfter 2 >>= fun third => k second third) ls more Q := by
  by_cases hw : l.atom.kind = .word
  · obtain ⟨lead, m, hmem, hsecond⟩ := getElem?_one_of_starts hs hm hl hw
    have hmark : ∀ m ∈ primaryEnds, (Atom.mark m).isMark ":" = false ∧ (Atom.mark m).isMark "?" = false := by
      decide
    refine Reads.peekAfter hsecond fun second h₂ => Reads.peekAfter_any fun third => h second third ?_
    rw [h₂.isMark, h₂.isMark, (hmark m hmem).1, (hmark m hmem).2]
    simp
  · refine Reads.peekAfter_any fun second => Reads.peekAfter_any fun third => h second third ?_
    simp [hfirst.kind, hw]

section

variable {kind : TypeKind} (h : Readable source kind) (hm : Next elementEnds more)
include h hm

theorem reads_requiredElement (hl : lead.Clear) (hdepth : (kindLexemes lead level kind).length ≤ depth) :
    Reads (tupleElement source (within source (depth + 1))) (kindLexemes lead level kind) more fun r =>
      r.mark = .required ∧ r.type.plain = kind.plain none ∧ r.label = none := by
  have hstarts := h.starts lead level
  obtain ⟨l, hhead, hstart, hdoc⟩ := hstarts.head
  rw [tupleElement]
  refine Reads.peek (hhead _) fun first hfirst =>
    Reads.accept_not (hhead _) (Atom.isMark_of_startsType hstart).2.2.2.1 ?_
  rw [if_neg (by simp)]
  refine Reads.not_label hstarts (hm.mono (by decide)) (by simpa using hhead []) hfirst fun second third hn => ?_
  dsimp only
  rw [if_neg (by simp [hn])]
  refine Reads.bind_last (h.whole lead level depth false _ hl hdepth (hm.mono (by decide))) fun t ht => ?_
  obtain ⟨_, m, _, hmem, rfl⟩ := hm
  have hmark : ∀ m ∈ elementEnds, (Atom.mark m).isMark "?" = false := by decide
  refine Reads.accept_not rfl (hmark m hmem) ?_
  rw [if_neg (by simp)]
  refine Reads.pure ⟨rfl, ?_, rfl⟩
  rw [hfirst.doc, ← hdoc, ht.plain]

theorem reads_restElement (hdepth : (kindLexemes {} level kind).length ≤ depth) :
    Reads (tupleElement source (within source (depth + 1))) (⟨lead, .mark .dots⟩ :: kindLexemes {} level kind) more
      fun r => r.mark = .rest ∧ r.type.plain = kind.plain none ∧ r.label = none := by
  have hstarts := h.starts {} level
  obtain ⟨l, hhead, -, -⟩ := hstarts.head
  rw [tupleElement]
  refine Reads.peek rfl fun first _ => Reads.accept rfl ?_
  rw [if_pos rfl]
  refine Reads.peek (hhead _) fun label hlabel => ?_
  refine Reads.not_label hstarts (hm.mono (by decide)) (by simpa using hhead []) hlabel fun second third hn => ?_
  dsimp only
  rw [if_neg (by simp [hn])]
  exact Reads.bind_last (h.documented false Lead.clear_empty hdepth (hm.mono (by decide))) fun t ht =>
    Reads.pure ⟨rfl, ht, rfl⟩

end

theorem reads_element {e : TupleElement} (h : ReadableElement source e) (hl : lead.Clear)
    (hdepth : (elementLexemes lead level e).length ≤ depth) (hm : Next elementEnds more) :
    Reads (tupleElement source (within source (depth + 1))) (elementLexemes lead level e) more fun r =>
      r.mark = e.mark ∧ r.type.plain = e.type.plain ∧ r.label = e.label := by
  rw [elementLexemes_eq] at hdepth ⊢
  rw [e.type.plain_eq, h.doc, Option.map_none, h.label]
  cases hmark : e.mark with
  | required =>
    rw [hmark, if_neg (by decide)] at hdepth
    exact reads_requiredElement h.readable hm hl hdepth
  | optional => exact absurd hmark h.mark
  | rest =>
    rw [hmark, if_pos rfl] at hdepth
    exact reads_restElement h.readable hm (Nat.le_of_succ_le hdepth)

theorem starts_element {e : TupleElement} (h : ReadableElement source e) (lead : Lead) (level : Nat) :
    ∃ l rest, elementLexemes lead level e = l :: rest ∧ l.atom.isMark "]" = false := by
  rw [elementLexemes_eq]
  split
  · exact ⟨_, _, rfl, rfl⟩
  · obtain ⟨l, rest, hls, hl, -⟩ := h.readable.starts lead level
    exact ⟨l, rest, hls, (Atom.isMark_of_startsType hl).2.2.2.2⟩

theorem plainElements_cons {r e : TupleElement}
    (h : r.mark = e.mark ∧ r.type.plain = e.type.plain ∧ r.label = e.label) {rs es : List TupleElement}
    (hs : plainElements rs = plainElements es) :
    plainElements (r :: rs) = plainElements (e :: es) := by
  obtain ⟨mark, t, label⟩ := r
  obtain ⟨mark', t', label'⟩ := e
  obtain ⟨rfl, ht, rfl⟩ := h
  rw [plainElements, plainElements, hs]
  exact congrArg (fun t => TupleElement.mk mark t label :: _) ht

theorem elementsAfterLexemes_cons (level : Nat) (e : TupleElement) (rest : List TupleElement) :
    elementsAfterLexemes level (e :: rest) =
      ⟨{}, .mark .comma⟩ :: (elementLexemes .space level e ++ elementsAfterLexemes level rest) := by
  rw [elementsAfterLexemes]

/-- Elements up to the closing bracket. -/
theorem reads_elements {lead : Lead} (hl : lead.Clear) (e : TupleElement) (rest : List TupleElement)
    (h : ∀ x ∈ e :: rest, ReadableElement source x)
    (hdepth : (elementLexemes lead level e ++ elementsAfterLexemes level rest).length ≤ depth) {n : Nat}
    (hn : (elementLexemes lead level e ++ elementsAfterLexemes level rest).length ≤ n) :
    Reads (repeatUpTo n (notClosed "]") (listItem "]" (tupleElement source (within source (depth + 1)))))
      (elementLexemes lead level e ++ elementsAfterLexemes level rest) (⟨{}, .mark .closeBracket⟩ :: more)
      fun rs => plainElements rs = plainElements (e :: rest) := by
  have he := h e List.mem_cons_self
  obtain ⟨l, ls, hls, hopen⟩ := starts_element he lead level
  have hhead (more : List Lexeme) : (elementLexemes lead level e ++ more).head? = some l := by rw [hls]; rfl
  rw [List.length_append] at hdepth hn
  have hfirst (more : List Lexeme) (hm : Next elementEnds more) :=
    reads_element he hl (Nat.le_of_add_right_le hdepth) hm
  obtain ⟨n, rfl⟩ : ∃ k, n = k + 1 := ⟨n - 1, by simp [hls] at hn; omega⟩
  cases rest with
  | nil =>
    have hlast : Reads (listItem "]" _) _ _ _ :=
      reads_item_last rfl rfl (hfirst _ ⟨{}, .closeBracket, more, by decide, rfl⟩)
    exact reads_until_step (by rw [List.append_assoc, hhead]) hopen hlast
      (reads_until_stop (R := fun rs => plainElements rs = plainElements []) rfl rfl)
      fun r rs hr hrs => plainElements_cons hr hrs
  | cons e' rest =>
    rw [elementsAfterLexemes_cons] at hdepth hn ⊢
    rw [List.length_cons] at hdepth hn
    rw [List.append_cons]
    have hrest := reads_elements Lead.clear_space e' rest (fun x hx => h x (List.mem_cons_of_mem _ hx))
      (by omega) (n := n)
      (by simp [hls] at hn ⊢; omega)
    exact reads_until_step (by rw [List.append_assoc, List.append_assoc, hhead]) hopen
      (reads_item_comma (hfirst _ ⟨{}, .comma, _, by decide, rfl⟩)) hrest
      fun r rs hr hrs => plainElements_cons hr hrs

/-- The lexemes between the brackets of a tuple. -/
def tupleLexemes (level : Nat) : List TupleElement → List Lexeme
  | [] => []
  | e :: rest => elementLexemes {} level e ++ elementsAfterLexemes level rest

theorem kindLexemes_tuple (lead : Lead) (level : Nat) (elements : List TupleElement) :
    kindLexemes lead level (.tuple elements) =
      ⟨lead, .mark .openBracket⟩ :: (tupleLexemes level elements ++ [⟨{}, .mark .closeBracket⟩]) := by
  cases elements with
  | nil => rw [kindLexemes, tupleLexemes, List.nil_append]
  | cons e rest => rw [kindLexemes, tupleLexemes, List.append_assoc]

theorem reads_tuple {elements : List TupleElement} (h : ∀ e ∈ elements, ReadableElement source e) {mayEnd : Bool}
    (hdepth : (kindLexemes lead level (.tuple elements)).length ≤ depth) :
    Reads (primary source (within source depth) mayEnd) (kindLexemes lead level (.tuple elements)) more
      (Found (.tuple elements)) := by
  rw [kindLexemes_tuple, List.length_cons, List.length_append] at hdepth
  obtain ⟨depth, rfl⟩ : ∃ k, depth = k + 1 := ⟨depth - 1, by omega⟩
  have hinside {n : Nat} (hn : (tupleLexemes level elements).length ≤ n) :
      Reads (repeatUpTo n (notClosed "]") (listItem "]" (tupleElement source (within source (depth + 1)))))
        (tupleLexemes level elements) (⟨{}, .mark .closeBracket⟩ :: more)
        fun rs => plainElements rs = plainElements elements := by
    cases elements with
    | nil => exact reads_until_stop rfl rfl
    | cons e rest => exact reads_elements Lead.clear_empty e rest h (by rw [tupleLexemes] at hdepth; omega) hn
  rw [kindLexemes_tuple, primary]
  refine Reads.peek rfl fun t ht => ?_
  have htext : t.text = "[" := ht.text
  simp only [ht.kind, Atom.kind, htext]
  refine Reads.next fun _ _ => Reads.bind_last (reads_listUntil rfl (hinside (by simp))) fun rs hrs =>
    Reads.finish fun span => ⟨rfl, rfl, fun doc => ?_⟩
  rw [TypeExpr.plain, TypeKind.plain, TypeKind.plain, hrs]

theorem readable_tuple {elements : List TupleElement} (h : ∀ e ∈ elements, ReadableElement source e) :
    Readable source (.tuple elements) := by
  refine .of_tight (fun lead level => ?_) fun lead level depth mayEnd hdepth =>
    .of_primary ⟨_, _, kindLexemes_tuple lead level elements, rfl, fun hw => by cases hw⟩ fun more _ =>
      reads_tuple h hdepth
  rw [kindLexemes_tuple]
  rfl

/-- The question mark of a property, if it has one. -/
def questionLexemes (optional : Bool) : List Lexeme := if optional then [⟨{}, .mark .question⟩] else []

/-- A property without the semicolon behind it. -/
def propertyLexemes (level : Nat) (name : String) (optional : Bool) (doc : Option String) (kind : TypeKind) :
    List Lexeme :=
  ⟨(Lead.line level).above level doc, nameAtom name⟩ ::
    (questionLexemes optional ++ ⟨{}, .mark .colon⟩ :: kindLexemes .space level kind)

/-- An index signature without the semicolon behind it. -/
def indexLexemes (level : Nat) (param : String) (doc : Option String) (key value : TypeKind) : List Lexeme :=
  ⟨(Lead.line level).above level doc, .mark .openBracket⟩ :: ⟨{}, .word param⟩ :: ⟨{}, .mark .colon⟩ ::
    (kindLexemes .space level key ++
      ⟨{}, .mark .closeBracket⟩ :: ⟨{}, .mark .colon⟩ :: kindLexemes .space level value)

/-- What may come behind a member. -/
def memberEnds : List Mark := [.semicolon]

theorem isMark_nameAtom (name text : String) : (nameAtom name).isMark text = false := by
  unfold nameAtom
  split <;> rfl

theorem reads_memberName (name : String) : Reads (memberName source) [⟨lead, nameAtom name⟩] more (· = name) := by
  rw [memberName]
  refine Reads.peek rfl fun t ht => ?_
  rw [if_neg (by simp [ht.isMark, isMark_nameAtom])]
  refine Reads.next fun t ht => ?_
  obtain ⟨hkind, htext, -⟩ := ht
  cases hsafe : isSafeName name with
  | true =>
    simp only [nameAtom, hsafe, if_true, Atom.kind, Atom.text] at hkind htext
    simp only [hkind]
    exact Reads.pure htext
  | false =>
    simp only [nameAtom, hsafe, Bool.false_eq_true, if_false, Atom.kind, Atom.text] at hkind htext
    simp only [hkind]
    exact Reads.pure (by rw [htext, Literal.unquote_quote])

theorem reads_question {α : Type} {k : Bool → Reader α} {optional : Bool} {ls : List Lexeme} {Q : α → Prop}
    (h : Reads (k optional) (⟨{}, .mark .colon⟩ :: ls) more Q) :
    Reads (accept "?" >>= k) (questionLexemes optional ++ ⟨{}, .mark .colon⟩ :: ls) more Q := by
  cases optional with
  | false => exact Reads.accept_not rfl rfl h
  | true => exact Reads.accept rfl h

/-- What follows the name of a property. -/
theorem reads_namedMember {start : Token} {name : String} {optional : Bool} {kind : TypeKind} (h : Readable source kind)
    (hdepth : (kindLexemes .space level kind).length ≤ depth) (hm : Next memberEnds more) :
    Reads (namedMember (within source (depth + 1)) start name)
      (questionLexemes optional ++ ⟨{}, .mark .colon⟩ :: kindLexemes .space level kind) more
      fun r => ∃ t span, r = .property name optional (some t) start.doc span ∧ t.plain = kind.plain none := by
  rw [namedMember]
  refine reads_question (Reads.peek rfl fun t ht => ?_)
  rw [if_neg (by simp [ht.isMark, Atom.isMark, Atom.text, Mark.text])]
  refine Reads.accept rfl ?_
  rw [if_pos rfl]
  have hvalue := h.documented true Lead.clear_space hdepth (hm.mono (by decide))
  have hsome := Reads.map (Q := fun t => ∃ e, t = some e ∧ e.plain = kind.plain none)
    (hvalue.mono fun e he => ⟨e, rfl, he⟩)
  refine Reads.bind_last hsome ?_
  rintro _ ⟨e, rfl, he⟩
  exact Reads.spanFrom fun span => Reads.pure ⟨e, some span, rfl, he⟩

theorem getElem?_one_propertyLexemes (level : Nat) (name : String) (optional : Bool) (doc : Option String)
    (kind : TypeKind) (more : List Lexeme) : ∃ m ∈ [Mark.question, .colon],
      (propertyLexemes level name optional doc kind ++ more)[1]? = some ⟨{}, .mark m⟩ := by
  cases optional with
  | false => exact ⟨.colon, by decide, rfl⟩
  | true => exact ⟨.question, by decide, rfl⟩

/-- The name of a property is no modifier of what follows it. -/
theorem reads_noModifier {ls : List Lexeme} {m : Mark} (hm : m ∈ [Mark.question, .colon])
    (hsecond : (ls ++ more)[1]? = some ⟨{}, .mark m⟩) :
    Reads atModifier [] (ls ++ more) (· = false) := by
  rw [atModifier]
  refine Reads.peekAfter_any (n := 0) fun t => Reads.peekAfter (by exact hsecond) fun second hs => Reads.pure ?_
  have hname : startsName second = false := by
    rw [startsName, hs.kind, hs.isMark, hs.isMark]
    obtain rfl | rfl : m = .question ∨ m = .colon := by simpa using hm
    · rfl
    · rfl
  rw [hname, Bool.and_false, Bool.false_and]

theorem reads_property {name : String} {optional : Bool} {doc : Option String} {kind : TypeKind}
    (h : Readable source kind) (hdoc : ∀ d ∈ doc, IsDoc d)
    (hdepth : (propertyLexemes level name optional doc kind).length ≤ depth)
    (hm : Next memberEnds more) :
    Reads (member source (within source (depth + 1))) (propertyLexemes level name optional doc kind) more fun r =>
      ∃ t d span, r = .property name optional (some t) d span ∧ t.plain = kind.plain none ∧
        d.map tidy = doc.map tidy := by
  obtain ⟨m, hmem, hsecond⟩ := getElem?_one_propertyLexemes level name optional doc kind more
  rw [member]
  refine Reads.peek rfl fun start hstart => Reads.peekAfter_any fun _ => ?_
  rw [if_neg (by simp [hstart.isMark, isMark_nameAtom])]
  refine Reads.bind_none (P := fun _ => True)
    (Reads.repeatWhile (Reads.repeatUpTo_stop (reads_noModifier hmem hsecond) trivial)) fun _ _ => ?_
  refine Reads.peek rfl fun t ht => Reads.peekAfter hsecond fun second hs => Reads.peekAfter_any fun third => ?_
  have hparen : second.isMark "(" = false ∧ second.isMark "<" = false ∧ second.isWord "new" = false := by
    rw [hs.isMark, hs.isMark, hs.isWord]
    obtain rfl | rfl : m = .question ∨ m = .colon := by simpa using hmem
    · exact ⟨rfl, rfl, rfl⟩
    · exact ⟨rfl, rfl, rfl⟩
  have hname (text : String) : t.isMark text = false := by rw [ht.isMark, isMark_nameAtom]
  dsimp only
  simp only [hname, hparen, Bool.false_and, Bool.and_false, Bool.or_false, Bool.false_eq_true, if_false]
  refine Reads.accept_not rfl (isMark_nameAtom _ _) ?_
  refine Reads.bind_one (reads_memberName name) ?_
  rintro _ rfl
  refine (reads_namedMember h ?_ hm).mono ?_
  · simp [propertyLexemes] at hdepth
    omega
  · rintro _ ⟨t, span, rfl, ht⟩
    refine ⟨t, _, span, rfl, ht, ?_⟩
    rw [hstart.doc, (Lead.clear_line level).above level hdoc]

theorem reads_index {param : String} {doc : Option String} {key value : TypeKind} (hkey : Readable source key)
    (hvalue : Readable source value) (hdoc : ∀ d ∈ doc, IsDoc d)
    (hdepth : (indexLexemes level param doc key value).length ≤ depth) (hm : Next memberEnds more) :
    Reads (member source (within source (depth + 1))) (indexLexemes level param doc key value) more fun r =>
      ∃ k v d span, r = .index param k v d span ∧ k.plain = key.plain none ∧ v.plain = value.plain none ∧
        d.map tidy = doc.map tidy := by
  simp only [indexLexemes, List.length_cons, List.length_append] at hdepth
  rw [member]
  refine Reads.peek rfl fun start hstart => Reads.peekAfter_any fun _ => ?_
  have hsign : start.isMark "+" = false ∧ start.isMark "-" = false := by
    rw [hstart.isMark, hstart.isMark]
    exact ⟨rfl, rfl⟩
  rw [if_neg (by simp [hsign])]
  have hmodifier : Reads atModifier [] (indexLexemes level param doc key value ++ more) (· = false) := by
    rw [atModifier]
    refine Reads.peek rfl fun t ht => Reads.peekAfter_any fun second => Reads.pure ?_
    simp [ht.kind, Atom.kind]
  refine Reads.bind_none (P := fun _ => True)
    (Reads.repeatWhile (Reads.repeatUpTo_stop hmodifier trivial)) fun _ _ => ?_
  refine Reads.peek rfl fun t ht => Reads.peekAfter rfl fun second hsecond => Reads.peekAfter rfl fun third hthird => ?_
  rw [if_pos (by rw [ht.isMark, hsecond.kind, hthird.isMark]; rfl), indexSignature]
  refine Reads.expect rfl (Reads.word fun name hname => Reads.expect rfl ?_)
  have hkey' := hkey.documented false Lead.clear_space (show (kindLexemes .space level key).length ≤ depth by omega)
    ⟨{}, .closeBracket, ⟨{}, .mark .colon⟩ :: kindLexemes .space level value ++ more, by decide, rfl⟩
  have hvalue' := hvalue.documented true Lead.clear_space
    (show (kindLexemes .space level value).length ≤ depth by omega) (hm.mono (by decide))
  refine Reads.bind hkey' fun k hk => Reads.expect rfl ?_
  rw [indexValue, bind_assoc]
  refine Reads.peekAfter_any (n := 0) fun _ => ?_
  rw [bind_assoc]
  refine Reads.accept rfl (Reads.bind_last hvalue' fun v hv => Reads.spanFrom fun span => Reads.pure ?_)
  refine ⟨k, v, _, some span, by rw [hname.text]; rfl, hk, hv, ?_⟩
  rw [hstart.doc, (Lead.clear_line level).above level hdoc]

/-- A member that is read wherever it is printed. -/
inductive ReadableMember (source : List Char) : Member → Prop
  | property {name optional kind inner doc span} (h : Readable source kind) (hdoc : ∀ d ∈ doc, IsDoc d) :
    ReadableMember source (.property name optional (some ⟨kind, none, inner⟩) doc span)
  | index {param key keySpan value valueSpan doc span} (hkey : Readable source key) (hvalue : Readable source value)
    (hdoc : ∀ d ∈ doc, IsDoc d) :
    ReadableMember source (.index param ⟨key, none, keySpan⟩ ⟨value, none, valueSpan⟩ doc span)

/-- What a member starts with is no mark between members. -/
def Atom.StartsMember (a : Atom) : Prop := ∀ text ∈ [";", ",", "\x7d"], a.isMark text = false

theorem plainMembers_cons (m : Member) (rest : List Member) :
    plainMembers (m :: rest) = plainMembers [m] ++ plainMembers rest := by
  cases m with
  | property name optional type doc span => cases type <;> simp only [plainMembers, List.singleton_append]
  | index | other => simp only [plainMembers, List.singleton_append]

/-- The lexemes of a member, without the semicolon behind it. -/
def Member.lexemes (level : Nat) : Member → List Lexeme
  | .property name optional (some t) doc _ => propertyLexemes level name optional doc t.kind
  | .index param key value doc _ => indexLexemes level param doc key.kind value.kind
  | .property _ _ none _ _ | .other _ => []

theorem memberLexemes_cons {m : Member} (h : ReadableMember source m) (level : Nat) (rest : List Member) :
    memberLexemes level (m :: rest) = m.lexemes level ++ ⟨{}, .mark .semicolon⟩ :: memberLexemes level rest := by
  cases h with
  | property => simp [memberLexemes, Member.lexemes, propertyLexemes, questionLexemes]
  | index => simp [memberLexemes, Member.lexemes, indexLexemes]

theorem starts_member {m : Member} (h : ReadableMember source m) (level : Nat) :
    ∃ l ls, m.lexemes level = l :: ls ∧ l.atom.StartsMember := by
  cases h with
  | property => exact ⟨_, _, rfl, fun text _ => isMark_nameAtom _ text⟩
  | index =>
    have hopen : (Atom.mark .openBracket).StartsMember := by
      unfold Atom.StartsMember
      decide
    exact ⟨_, _, rfl, hopen⟩

theorem reads_member {m : Member} (h : ReadableMember source m) (hdepth : (m.lexemes level).length ≤ depth)
    (hm : Next memberEnds more) :
    Reads (member source (within source (depth + 1))) (m.lexemes level) more
      fun r => plainMembers [r] = plainMembers [m] := by
  cases h with
  | @property name optional kind inner doc span h hdoc =>
    refine (reads_property h hdoc hdepth hm).mono ?_
    rintro _ ⟨t, d, span', rfl, ht, hd⟩
    simp only [plainMembers, TypeExpr.plain_eq ⟨kind, none, inner⟩, ht, hd, Option.map_none]
  | @index param key keySpan value valueSpan doc span hkey hvalue hdoc =>
    refine (reads_index hkey hvalue hdoc hdepth hm).mono ?_
    rintro _ ⟨k, v, d, span', rfl, hk, hv, hd⟩
    simp only [plainMembers, TypeExpr.plain_eq ⟨key, none, keySpan⟩, TypeExpr.plain_eq ⟨value, none, valueSpan⟩, hk,
      hv, hd, Option.map_none]

theorem reads_memberOrMark {l : Lexeme} {ls : List Lexeme} {P : Member → Prop} {nested : Nested}
    (hhead : (ls ++ more).head? = some l) (hl : l.atom.StartsMember) (h : Reads (member source nested) ls more P) :
    Reads (memberOrMark source nested) ls more fun r => ∃ m, r = some m ∧ P m := by
  rw [memberOrMark]
  refine Reads.accept_not hhead (hl ";" (by decide)) (Reads.accept_not hhead (hl "," (by decide)) ?_)
  rw [if_neg (by simp)]
  exact Reads.bind_last h fun m hm => Reads.pure ⟨m, rfl, hm⟩

theorem reads_semicolon {nested : Nested} {l : Lexeme} (hl : more.head? = some l) (hcomma : l.atom.isMark "," = false) :
    Reads (memberOrMark source nested) [⟨{}, .mark .semicolon⟩] more (· = none) := by
  rw [memberOrMark]
  exact Reads.accept rfl (Reads.accept_not (by exact hl) hcomma (Reads.pure rfl))

/-- No comma stands behind the semicolon of a member. -/
theorem head?_memberLexemes {members : List Member} (h : ∀ m ∈ members, ReadableMember source m) (level : Nat)
    (lead : Lead) (more : List Lexeme) :
    ∃ l, (memberLexemes level members ++ ⟨lead, .mark .closeBrace⟩ :: more).head? = some l ∧
      l.atom.isMark "," = false := by
  cases members with
  | nil =>
    rw [memberLexemes]
    exact ⟨_, rfl, rfl⟩
  | cons m rest =>
    obtain ⟨l, ls, hls, hl⟩ := starts_member (h m List.mem_cons_self) level
    rw [memberLexemes_cons (h m List.mem_cons_self), hls]
    exact ⟨l, rfl, hl "," (by decide)⟩

/-- Members up to the closing brace, each with the semicolon behind it. -/
theorem reads_members (members : List Member) (h : ∀ m ∈ members, ReadableMember source m)
    (hdepth : (memberLexemes level members).length ≤ depth) {n : Nat}
    (hn : (memberLexemes level members).length ≤ n) :
    Reads (repeatUpTo n (notClosed "\x7d") (memberOrMark source (within source (depth + 1))))
      (memberLexemes level members) (⟨lead, .mark .closeBrace⟩ :: more)
      fun rs => plainMembers (rs.filterMap id) = plainMembers members := by
  induction members generalizing n with
  | nil =>
    rw [memberLexemes]
    exact reads_until_stop rfl rfl
  | cons m rest ih =>
    have hm := h m List.mem_cons_self
    have hrest : ∀ x ∈ rest, ReadableMember source x := fun x hx => h x (List.mem_cons_of_mem _ hx)
    obtain ⟨l, ls, hls, hl⟩ := starts_member hm level
    have hhead (more : List Lexeme) : (m.lexemes level ++ more).head? = some l := by rw [hls]; rfl
    have hpos : 0 < (m.lexemes level).length := by simp [hls]
    obtain ⟨next, hnext, hcomma⟩ := head?_memberLexemes hrest level lead more
    rw [memberLexemes_cons hm, List.length_append, List.length_cons] at hdepth hn
    rw [memberLexemes_cons hm]
    obtain ⟨n, rfl⟩ : ∃ k, n = k + 2 := ⟨n - 2, by omega⟩
    have hmember := reads_memberOrMark (hhead _) hl (reads_member hm (show (m.lexemes level).length ≤ depth by omega)
      ⟨{}, .semicolon, memberLexemes level rest ++ ⟨lead, .mark .closeBrace⟩ :: more, by decide, rfl⟩)
    have hafter : Reads (repeatUpTo (n + 1) (notClosed "\x7d") (memberOrMark source (within source (depth + 1))))
        ([⟨{}, .mark .semicolon⟩] ++ memberLexemes level rest) (⟨lead, .mark .closeBrace⟩ :: more)
        fun rs => plainMembers (rs.filterMap id) = plainMembers rest :=
      reads_until_step rfl rfl (reads_semicolon hnext hcomma) (ih hrest (by omega) (by omega))
        fun a as ha has => by rwa [ha]
    refine reads_until_step (by rw [List.append_assoc, hhead]) (hl "\x7d" (by decide)) hmember hafter ?_
    rintro _ rs ⟨r, rfl, hr⟩ hrs
    rw [List.filterMap_cons, plainMembers_cons m, ← hr, ← hrs, ← plainMembers_cons]
    rfl

/-- Members with the closing brace. -/
theorem reads_membersClosed {members : List Member} (h : ∀ m ∈ members, ReadableMember source m)
    (hdepth : (memberLexemes level members).length ≤ depth) :
    Reads (TypeReader.members source (within source (depth + 1)) "\x7d")
      (memberLexemes level members ++ [⟨lead, .mark .closeBrace⟩]) more
      fun rs => plainMembers rs = plainMembers members :=
  Reads.bind (Reads.repeatWhile (reads_members members h hdepth (by simp))) fun _ hrs =>
    Reads.expect rfl (Reads.pure hrs)

/-- What stands in front of the closing brace of an object type. -/
def closingLead (level : Nat) (members : List Member) : Lead := if members.isEmpty then {} else .line level

theorem kindLexemes_object (lead : Lead) (level : Nat) (members : List Member) :
    kindLexemes lead level (.object members) =
      ⟨lead, .mark .openBrace⟩ ::
        (memberLexemes (level + 1) members ++ [⟨closingLead level members, .mark .closeBrace⟩]) := by
  cases members with
  | nil => simp [kindLexemes, memberLexemes, closingLead]
  | cons m rest => simp [kindLexemes, closingLead]

theorem readable_object {members : List Member} (h : ∀ m ∈ members, ReadableMember source m) :
    Readable source (.object members) := by
  refine .of_tight (fun lead level => ?_) fun lead level depth mayEnd hdepth =>
    .of_primary ⟨_, _, kindLexemes_object lead level members, rfl, fun hw => by cases hw⟩ fun more _ => ?_
  · rw [kindLexemes_object]
    rfl
  · rw [kindLexemes_object, List.length_cons, List.length_append] at hdepth
    obtain ⟨depth, rfl⟩ : ∃ k, depth = k + 1 := ⟨depth - 1, by omega⟩
    rw [kindLexemes_object, primary]
    refine Reads.peek rfl fun t ht => ?_
    have htext : t.text = "\x7b" := ht.text
    simp only [ht.kind, Atom.kind, htext]
    refine Reads.next fun _ _ => Reads.bind_last (reads_membersClosed h (by omega)) fun rs hrs =>
      Reads.finish fun span => ⟨rfl, rfl, fun doc => ?_⟩
    rw [TypeExpr.plain, TypeKind.plain, TypeKind.plain, hrs]

mutual

theorem readable (source : List Char) (kind : TypeKind) (h : kind.Legible) : Readable source kind := by
  match kind with
  | .keyword k => exact readable_keyword h
  | .literal l => exact readable_literal h
  | .reference name qualified args =>
    obtain ⟨hn, rfl, rfl⟩ := h
    exact readable_reference hn
  | .array ⟨kind, doc, span⟩ =>
    obtain ⟨rfl, hk⟩ := h
    exact readable_array hk (readable source kind hk) span
  | .tuple elements => exact readable_tuple (readable_elements source elements h)
  | .union [] | .intersection [] => exact absurd h.1 (by simp)
  | .union (t :: rest) =>
    obtain ⟨hlength, hwhere, hall⟩ := h
    have hall := readable_operands source (t :: rest) hall
    exact readable_union (hall t List.mem_cons_self) (fun u hu => hall u (List.mem_cons_of_mem _ hu))
      (by rintro rfl; simp at hlength) hwhere
  | .intersection (t :: rest) =>
    obtain ⟨hlength, hall⟩ := h
    have hall := readable_operands source (t :: rest) hall
    exact readable_intersection (hall t List.mem_cons_self) (fun u hu => hall u (List.mem_cons_of_mem _ hu))
      (by rintro rfl; simp at hlength)
  | .object members => exact readable_object (readable_members source members h)
  | .parenthesized _ | .unsupported _ => cases h

theorem readable_operands (source : List Char) (ts : List TypeExpr) (h : LegibleOperands ts) :
    ∀ t ∈ ts, ReadableOperand source t := by
  match ts with
  | [] => exact fun t ht => by cases ht
  | ⟨kind, doc, span⟩ :: rest =>
    obtain ⟨hd, hk, hrest⟩ := h
    have hrest := readable_operands source rest hrest
    have hkind := readable source kind hk
    rintro t (_ | ⟨_, ht⟩)
    · exact ⟨hd, hk, hkind⟩
    · exact hrest t ht

theorem readable_elements (source : List Char) (es : List TupleElement) (h : LegibleElements es) :
    ∀ e ∈ es, ReadableElement source e := by
  match es with
  | [] => exact fun e he => by cases he
  | ⟨mark, ⟨kind, doc, span⟩, label⟩ :: rest =>
    obtain ⟨hmark, hlabel, hdoc, hk, hrest⟩ := h
    have hrest := readable_elements source rest hrest
    have hkind := readable source kind hk
    rintro e (_ | ⟨_, he⟩)
    · exact ⟨hmark, hlabel, hdoc, hkind⟩
    · exact hrest e he

theorem readable_members (source : List Char) (ms : List Member) (h : LegibleMembers ms) :
    ∀ m ∈ ms, ReadableMember source m := by
  match ms with
  | [] => exact fun m hm => by cases hm
  | .property name optional (some ⟨kind, inner, span⟩) doc span' :: rest =>
    obtain ⟨hd, rfl, hk, hrest⟩ := h
    have hrest := readable_members source rest hrest
    have hkind := readable source kind hk
    rintro m (_ | ⟨_, hm⟩)
    · exact .property hkind hd
    · exact hrest m hm
  | .index param ⟨key, keyDoc, keySpan⟩ ⟨value, valueDoc, valueSpan⟩ doc span :: rest =>
    obtain ⟨hd, -, rfl, hkey, rfl, hvalue, hrest⟩ := h
    have hrest := readable_members source rest hrest
    have hkey := readable source key hkey
    have hvalue := readable source value hvalue
    rintro m (_ | ⟨_, hm⟩)
    · exact .index hkey hvalue hd
    · exact hrest m hm
  | .property _ _ none _ _ :: _ | .other _ :: _ => cases h

end

end TypeSchema
