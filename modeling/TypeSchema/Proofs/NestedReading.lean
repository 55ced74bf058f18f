import TypeSchema.Proofs.TypeReading

namespace TypeSchema

/-- No comment in front is taken for that of what follows. -/
def Lead.Clear (lead : Lead) : Prop := ∀ doc, docAfter lead.gap doc lead.comments.reverse = doc

namespace Lead

theorem clear_of_no_comments {lead : Lead} (h : lead.comments = []) : lead.Clear := by
  intro doc
  rw [h]
  rfl

theorem clear_empty : ({} : Lead).Clear := clear_of_no_comments rfl

theorem clear_space : space.Clear := clear_of_no_comments rfl

theorem clear_line (level : Nat) : (line level).Clear := clear_of_no_comments rfl

variable {lead : Lead} (h : lead.Clear)
include h

theorem Clear.doc : lead.doc = none := h none

/-- A comment with at most one line break behind it is that of what follows. -/
theorem Clear.doc_commented (level : Nat) {doc : String} (hd : IsDoc doc) {gap : List Char}
    (hgap : gap.count '\n' ≤ 1) :
    (lead.commented (commentChars level doc) gap).doc = some (String.ofList (commentChars level doc)) := by
  have hopens : "/**".toList.isPrefixOf (commentChars level doc) = true :=
    List.isPrefixOf_iff_prefix.mpr (hd.opens level)
  rw [Lead.doc, commented, List.reverse_append, List.reverse_singleton, List.singleton_append, docAfter,
    if_neg (Nat.not_lt.mpr hgap), hopens]
  exact h _

theorem Clear.inline (level : Nat) {doc : Option String} (hd : ∀ d ∈ doc, IsDoc d) :
    (lead.inline level doc).doc.map tidy = doc.map tidy := by
  cases doc with
  | none => exact congrArg _ h.doc
  | some d =>
    rw [Lead.inline, h.doc_commented level (hd d rfl) (by decide), Option.map_some, (hd d rfl).tidy]
    rfl

theorem Clear.above (level : Nat) {doc : Option String} (hd : ∀ d ∈ doc, IsDoc d) :
    (lead.above level doc).doc.map tidy = doc.map tidy := by
  have hgap : ('\n' :: indent level).count '\n' ≤ 1 := by
    simp [indent_eq, List.count_replicate]
  cases doc with
  | none => exact congrArg _ h.doc
  | some d =>
    rw [Lead.above, h.doc_commented level (hd d rfl) hgap, Option.map_some, (hd d rfl).tidy]
    rfl

end Lead

open Reader TypeReader

theorem firstDoc_append {ls more : List Lexeme} (h : Starts ls) : firstDoc (ls ++ more) = firstDoc ls := by
  obtain ⟨l, rest, rfl, -⟩ := h
  rfl

/-- A type that is read for one of the given kind with the comment in front of it: a comment in front of an operation is
that of its first operand. -/
structure Means (kind : TypeKind) (doc : Option String) (e : TypeExpr) : Prop where
  noDoc : e.doc = none
  plain : (e.withDoc doc).plain = kind.plain none

theorem TypeExpr.withDoc_none {e : TypeExpr} (h : e.doc = none) : e.withDoc none = e := by
  obtain ⟨kind, doc, span⟩ := e
  obtain rfl : doc = none := h
  unfold withDoc
  split
  · next first rest hk =>
    obtain ⟨kind', doc, span'⟩ := first
    obtain rfl : kind = _ := hk
    simp only [Option.or_none]
  · next first rest hk =>
    obtain ⟨kind', doc, span'⟩ := first
    obtain rfl : kind = _ := hk
    simp only [Option.or_none]
  · rfl

theorem Found.means {kind : TypeKind} {e : TypeExpr} (h : Found kind e) : Means kind none e :=
  ⟨h.doc, h.withDoc none⟩

/-- A type that is read wherever it is printed: as an operand, as an operand of a union, and as a whole. -/
structure Readable (source : List Char) (kind : TypeKind) : Prop where
  starts : ∀ lead level, Starts (kindLexemes lead level kind)
  lead : Printer.isUnion kind = false → kind.leadingDoc = none → ∀ lead level,
    firstDoc (kindLexemes lead level kind) = lead.doc
  tight : Printer.isOperation kind = false → ∀ lead level depth mayEnd,
    (kindLexemes lead level kind).length ≤ depth →
    ReadsTight source (within source depth) mayEnd (kindLexemes lead level kind) kind
  item : Printer.isUnion kind = false → ∀ lead level depth mayEnd more, lead.Clear →
    (kindLexemes lead level kind).length ≤ depth → Next itemEnds more →
    Reads (intersection source (within source depth) mayEnd) (kindLexemes lead level kind) more
      (Means kind (firstDoc (kindLexemes lead level kind)))
  whole : ∀ lead level depth mayEnd more, lead.Clear →
    (kindLexemes lead level kind).length ≤ depth → Next typeEnds more →
    Reads (type source (within source depth) mayEnd) (kindLexemes lead level kind) more
      (Means kind (firstDoc (kindLexemes lead level kind)))

theorem isUnion_of_not_operation {kind : TypeKind} (h : Printer.isOperation kind = false) :
    Printer.isUnion kind = false ∧ kind.leadingDoc = none := by
  cases kind with
  | union | intersection => cases h
  | _ => exact ⟨rfl, rfl⟩

namespace Readable

variable {source : List Char} {kind : TypeKind}

theorem of_tight (hlead : ∀ lead level, firstDoc (kindLexemes lead level kind) = lead.doc)
    (htight : ∀ lead level depth mayEnd, (kindLexemes lead level kind).length ≤ depth →
      ReadsTight source (within source depth) mayEnd (kindLexemes lead level kind) kind) : Readable source kind where
  starts lead level := (htight lead level _ false (Nat.le_refl _)).starts
  lead _ _ := hlead
  tight _ := htight
  item _ lead level depth mayEnd more hl hdepth hm := by
    rw [hlead, hl.doc]
    exact ((htight lead level depth mayEnd hdepth).intersection hm).mono fun e he => he.means
  whole lead level depth mayEnd more hl hdepth hm := by
    rw [hlead, hl.doc]
    exact ((htight lead level depth mayEnd hdepth).type hm).mono fun e he => he.means

variable (h : Readable source kind) {lead : Lead} {level depth : Nat} {mayEnd : Bool}
include h

/-- Reading with the comment in front. -/
theorem documented (mayEnd : Bool) (hl : lead.Clear) (hdepth : (kindLexemes lead level kind).length ≤ depth)
    {more : List Lexeme} (hm : Next typeEnds more) :
    Reads (TypeReader.documented (type source (within source depth) mayEnd)) (kindLexemes lead level kind) more
      fun e => e.plain = kind.plain none :=
  Reads.documented (h.starts lead level) ((h.whole lead level depth mayEnd more hl hdepth hm).mono fun _ he => he.plain)

/-- In parentheses, every type stands on its own. -/
theorem parens (hk : kind.Legible)
    (hdepth : (wrappedLexemes true lead fun lead => kindLexemes lead level kind).length ≤ depth) :
    ReadsTight source (within source depth) mayEnd (wrappedLexemes true lead fun lead => kindLexemes lead level kind)
      kind := by
  obtain ⟨depth, rfl⟩ : ∃ d, depth = d + 1 := ⟨depth - 1, by simp [wrappedLexemes] at hdepth; omega⟩
  have hinner : (kindLexemes {} level kind).length ≤ depth := by
    simp [wrappedLexemes] at hdepth
    omega
  refine ReadsTight.of_primary ⟨_, _, rfl, rfl, fun hw => by cases hw⟩ fun more hm => ?_
  rw [primary]
  refine Reads.peek rfl fun t ht => ?_
  have htext : t.text = "(" := ht.text
  simp only [ht.kind, Atom.kind, htext]
  have hread := h.documented false Lead.clear_empty hinner ⟨{}, .closeParen, more, by decide, rfl⟩
  refine Reads.next fun _ _ => Reads.bind hread fun inner hplain =>
    Reads.expect rfl (Reads.finish fun span => ⟨rfl, rfl, fun doc => ?_⟩)
  change ({ inner.plain with doc := inner.plain.doc.or (doc.map tidy) } : TypeExpr) = _
  rw [hplain, (TypeKind.plain_doc hk none).1, Option.none_or, (TypeKind.plain_doc hk (doc.map tidy)).2]

/-- An operand stands on its own: it is no operation, or it stands in parentheses. -/
theorem operand (hk : kind.Legible) {wraps : Bool} (hw : wraps = true ∨ Printer.isOperation kind = false)
    (hdepth : (wrappedLexemes wraps lead fun lead => kindLexemes lead level kind).length ≤ depth) :
    ReadsTight source (within source depth) mayEnd (wrappedLexemes wraps lead fun lead => kindLexemes lead level kind)
      kind := by
  cases wraps with
  | true => exact h.parens hk hdepth
  | false => exact h.tight (hw.resolve_left (by decide)) lead level depth mayEnd hdepth

theorem starts_operand (hk : kind.Legible) {wraps : Bool} (hw : wraps = true ∨ Printer.isOperation kind = false) :
    Starts (wrappedLexemes wraps lead fun lead => kindLexemes lead level kind) :=
  have htight : ReadsTight source (within source _) false
      (wrappedLexemes wraps lead fun lead => kindLexemes lead level kind) kind := h.operand hk hw (Nat.le_refl _)
  htight.starts

theorem firstDoc_operand {wraps : Bool} (hw : wraps = true ∨ Printer.isOperation kind = false) :
    firstDoc (wrappedLexemes wraps lead fun lead => kindLexemes lead level kind) = lead.doc := by
  cases wraps with
  | true => rfl
  | false =>
    obtain ⟨hunion, hleading⟩ := isUnion_of_not_operation (hw.resolve_left (by decide))
    exact h.lead hunion hleading lead level

end Readable

/-- An operand that is read wherever it is printed, with a comment that is read as its comment. -/
structure ReadableOperand (source : List Char) (t : TypeExpr) : Prop where
  isDoc : ∀ d ∈ t.doc, IsDoc d
  legible : t.kind.Legible
  readable : Readable source t.kind

theorem TypeExpr.plain_eq (t : TypeExpr) : t.plain = t.kind.plain (t.doc.map tidy) := by
  obtain ⟨kind, doc, span⟩ := t
  rw [TypeExpr.plain]

section

variable {source : List Char} {t : TypeExpr} {wraps : TypeKind → Bool} {lead : Lead} {level depth : Nat}
  {mayEnd : Bool} {more : List Lexeme}

namespace ReadableOperand

variable (h : ReadableOperand source t)
include h

theorem tight (hw : wraps t.kind = true ∨ Printer.isOperation t.kind = false)
    (hdepth : (operandLexemes wraps lead level t).length ≤ depth) :
    ReadsTight source (within source depth) mayEnd (operandLexemes wraps lead level t) t.kind :=
  h.readable.operand h.legible hw hdepth

theorem starts_tight (hw : wraps t.kind = true ∨ Printer.isOperation t.kind = false) :
    Starts (operandLexemes wraps lead level t) :=
  h.readable.starts_operand h.legible hw

/-- An operand that stands on its own has the comment in front of it. -/
theorem plain_of_found (hl : lead.Clear) (hw : wraps t.kind = true ∨ Printer.isOperation t.kind = false)
    {e : TypeExpr} (he : Found t.kind e) :
    ({ e with doc := firstDoc (operandLexemes wraps lead level t) } : TypeExpr).plain = t.plain := by
  rw [he.plain, t.plain_eq, h.readable.firstDoc_operand hw, hl.inline level h.isDoc]

theorem withDoc_of_found (hl : lead.Clear) (hw : wraps t.kind = true ∨ Printer.isOperation t.kind = false)
    {e : TypeExpr} (he : Found t.kind e) :
    (e.withDoc (firstDoc (operandLexemes wraps lead level t))).plain = t.plain := by
  rw [he.withDoc, ← he.plain, h.plain_of_found hl hw he]

end ReadableOperand

theorem kindLexemes_intersection (t : TypeExpr) (rest : List TypeExpr) :
    kindLexemes lead level (.intersection (t :: rest)) =
      operandLexemes Printer.isOperation lead level t ++
        operandsAfterLexemes .ampersand Printer.isOperation level rest := by
  obtain ⟨kind, doc, span⟩ := t
  rw [kindLexemes]

theorem kindLexemes_union (t : TypeExpr) (rest : List TypeExpr) :
    kindLexemes lead level (.union (t :: rest)) =
      operandLexemes Printer.isUnion lead level t ++ operandsAfterLexemes .bar Printer.isUnion level rest := by
  obtain ⟨kind, doc, span⟩ := t
  rw [kindLexemes]

theorem Starts.operands {first : List Lexeme} (h : Starts first) {operator : Mark}
    (hop : operator ∈ [Mark.bar, .ampersand]) (rest : List TypeExpr) :
    Starts (first ++ operandsAfterLexemes operator wraps level rest) := by
  cases rest with
  | nil => rwa [operandsAfterLexemes, List.append_nil]
  | cons t rest =>
    rw [operandsAfterLexemes_cons]
    refine h.append ⟨.space, operator, _, ?_, rfl⟩
    revert hop operator
    decide

theorem length_operand_le (wraps : TypeKind → Bool) (level : Nat) (operator : Mark) {rest : List TypeExpr}
    (ht : t ∈ rest) :
    (operandLexemes wraps .space level t).length ≤ (operandsAfterLexemes operator wraps level rest).length := by
  induction rest with
  | nil => cases ht
  | cons u rest ih =>
    rw [operandsAfterLexemes_cons]
    simp only [List.length_append, List.length_singleton]
    rcases List.mem_cons.mp ht with rfl | ht
    · omega
    · have := ih ht
      omega

theorem isOperation_or (kind : TypeKind) : Printer.isOperation kind = true ∨ Printer.isOperation kind = false := by
  cases Printer.isOperation kind <;> simp

theorem plainTypes_of_forall₂ {es ts : List TypeExpr} (h : List.Forall₂ (fun e t => e.plain = t.plain) es ts) :
    plainTypes es = plainTypes ts := by
  induction h with
  | nil => rfl
  | cons he _ ih => rw [plainTypes, plainTypes, he, ih]

/-- The comment in front of an operation goes to its first operand. -/
theorem reads_operation_means {operator : Mark} (hop : operator ∈ [Mark.bar, .ampersand]) {ends inside : List Mark}
    (hends : operator ∉ ends) (hsub : ∀ m ∈ operator :: ends, m ∈ inside) (hm : Next ends more)
    {item : Reader TypeExpr} {first : List Lexeme} (hfirst : Starts first)
    (hread : ∀ more, Next inside more → Reads item first more fun e =>
      ({ e with doc := e.doc.or (firstDoc first) } : TypeExpr).plain = t.plain)
    {rest : List TypeExpr} (hne : rest ≠ [])
    (h : ∀ u ∈ rest, Starts (operandLexemes wraps .space level u) ∧ ∀ more, Next inside more →
      Reads item (operandLexemes wraps .space level u) more fun e =>
        (e.withDoc (firstDoc (operandLexemes wraps .space level u))).plain = u.plain)
    {make : List TypeExpr → TypeKind} (hmake : make = .union ∨ make = .intersection) :
    Reads (operation operator.text make item) (first ++ operandsAfterLexemes operator wraps level rest) more
      (Means (make (t :: rest)) (firstDoc (first ++ operandsAfterLexemes operator wraps level rest))) := by
  rw [firstDoc_append hfirst]
  refine (reads_operation (R := fun e u => e.plain = u.plain) hop hends hsub hm hfirst hread hne
    (fun u hu => (h u hu).1) fun u hu => (h u hu).2).mono ?_
  rintro _ ⟨e, es, span, rfl, he, hes⟩
  replace hes := plainTypes_of_forall₂ hes
  rcases hmake with rfl | rfl
  · refine ⟨rfl, ?_⟩
    change TypeExpr.plain { kind := .union ({ e with doc := e.doc.or _ } :: es), span } = _
    rw [TypeExpr.plain, TypeKind.plain, TypeKind.plain, plainTypes, plainTypes, he, hes]
    rfl
  · refine ⟨rfl, ?_⟩
    change TypeExpr.plain { kind := .intersection ({ e with doc := e.doc.or _ } :: es), span } = _
    rw [TypeExpr.plain, TypeKind.plain, TypeKind.plain, plainTypes, plainTypes, he, hes]
    rfl

section

variable {rest : List TypeExpr} (ht : ReadableOperand source t) (h : ∀ u ∈ rest, ReadableOperand source u)
  (hne : rest ≠ [])
include ht

theorem starts_intersection : Starts (kindLexemes lead level (.intersection (t :: rest))) := by
  rw [kindLexemes_intersection]
  exact (ht.starts_tight (isOperation_or t.kind)).operands (by decide) rest

include h hne

/-- No operand of an intersection is an operation, unless in parentheses. -/
theorem reads_intersection (hl : lead.Clear)
    (hdepth : (kindLexemes lead level (.intersection (t :: rest))).length ≤ depth) (hm : Next itemEnds more) :
    Reads (intersection source (within source depth) mayEnd) (kindLexemes lead level (.intersection (t :: rest))) more
      (Means (.intersection (t :: rest)) (firstDoc (kindLexemes lead level (.intersection (t :: rest))))) := by
  rw [kindLexemes_intersection] at hdepth ⊢
  rw [List.length_append] at hdepth
  have hfirst : ReadsTight source (within source depth) mayEnd
      (operandLexemes Printer.isOperation lead level t) t.kind := ht.tight (isOperation_or t.kind) (by omega)
  refine reads_operation_means (show Mark.ampersand ∈ [Mark.bar, .ampersand] by decide) (by decide) (by decide) hm
    hfirst.starts (fun more hm => (hfirst.operand hm).mono fun e he => ?_) hne (fun u hu => ?_) (.inr rfl)
  · rw [he.doc, Option.none_or, ht.plain_of_found hl (isOperation_or t.kind) he]
  · have hlength := length_operand_le Printer.isOperation level .ampersand hu
    have hu' : ReadsTight source (within source depth) mayEnd
        (operandLexemes Printer.isOperation .space level u) u.kind := (h u hu).tight (isOperation_or u.kind) (by omega)
    exact ⟨hu'.starts, fun more hm => (hu'.operand hm).mono fun e he =>
      (h u hu).withDoc_of_found Lead.clear_space (isOperation_or u.kind) he⟩

theorem readable_intersection : Readable source (.intersection (t :: rest)) where
  starts _ _ := starts_intersection ht
  lead _ hleading lead level := by
    have hw := isOperation_or t.kind
    rw [kindLexemes_intersection, firstDoc_append (ht.starts_tight hw), ht.readable.firstDoc_operand hw,
      show t.doc = none from hleading]
    rfl
  tight hop := by cases hop
  item _ _ _ _ _ _ hl hdepth hm := reads_intersection ht h hne hl hdepth hm
  whole _ _ _ _ _ hl hdepth hm :=
    Reads.type hm (reads_operation_one (show Mark.bar ∈ [Mark.bar, .ampersand] by decide) (by decide) hm
      (starts_intersection ht) (reads_intersection ht h hne hl hdepth (hm.mono (by decide))))

end

/-- What an operand of a union is read for: it has the comment in front of it, whether that goes to the operand or, in
front of a whole union, to its first operand. -/
theorem ReadableOperand.item (h : ReadableOperand source t) (hdoc : t.kind.isIntersection → t.doc = none)
    (hl : lead.Clear) (hdepth : (operandLexemes Printer.isUnion lead level t).length ≤ depth)
    (hm : Next itemEnds more) :
    Reads (intersection source (within source depth) mayEnd) (operandLexemes Printer.isUnion lead level t) more fun e =>
      (e.withDoc (firstDoc (operandLexemes Printer.isUnion lead level t))).plain = t.plain ∧
        (t.kind.leadingDoc = none →
          ({ e with doc := e.doc.or (firstDoc (operandLexemes Printer.isUnion lead level t)) } : TypeExpr).plain =
            t.plain) := by
  by_cases hw : Printer.isUnion t.kind = true ∨ Printer.isOperation t.kind = false
  · refine ((h.tight hw hdepth).intersection hm).mono fun e he => ⟨h.withDoc_of_found hl hw he, fun _ => ?_⟩
    rw [he.doc, Option.none_or, h.plain_of_found hl hw he]
  · -- an intersection without parentheses, and so without a comment of its own
    obtain ⟨hunion, hop⟩ : Printer.isUnion t.kind = false ∧ t.kind.isIntersection := by
      revert hw
      cases t.kind <;> simp [Printer.isUnion, Printer.isOperation, TypeKind.isIntersection]
    have hnone := hdoc hop
    have hls : operandLexemes Printer.isUnion lead level t = kindLexemes lead level t.kind := by
      rw [operandLexemes, hunion, hnone]
      rfl
    rw [hls] at hdepth ⊢
    refine (h.readable.item hunion lead level depth mayEnd more hl hdepth hm).mono fun e he => ?_
    rw [he.plain, he.noDoc, Option.none_or, t.plain_eq, hnone, Option.map_none]
    refine ⟨rfl, fun hleading => ?_⟩
    rw [h.readable.lead hunion hleading, hl.doc, ← he.plain, h.readable.lead hunion hleading, hl.doc,
      TypeExpr.withDoc_none he.noDoc]
    obtain ⟨kind, doc, span⟩ := e
    rw [show doc = none from he.noDoc]

theorem ReadableOperand.starts_item (h : ReadableOperand source t) :
    Starts (operandLexemes Printer.isUnion lead level t) := by
  cases hunion : Printer.isUnion t.kind with
  | true => exact h.starts_tight (.inl hunion)
  | false =>
    rw [operandLexemes, hunion]
    exact h.readable.starts _ _

theorem readable_union {rest : List TypeExpr} (ht : ReadableOperand source t)
    (h : ∀ u ∈ rest, ReadableOperand source u) (hne : rest ≠ []) (hwhere : SaysWhere (t :: rest)) :
    Readable source (.union (t :: rest)) where
  starts lead level := by
    rw [kindLexemes_union]
    exact ht.starts_item.operands (by decide) rest
  lead hunion := by cases hunion
  tight hop := by cases hop
  item hunion := by cases hunion
  whole lead level depth mayEnd more hl hdepth hm := by
    rw [kindLexemes_union] at hdepth ⊢
    rw [List.length_append] at hdepth
    refine Reads.type hm (reads_operation_means (show Mark.bar ∈ [Mark.bar, .ampersand] by decide) (by decide)
      (show ∀ m ∈ .bar :: typeEnds, m ∈ itemEnds by decide) hm ht.starts_item (fun more hm => ?_) hne
      (fun u hu => ?_) (.inl rfl))
    · exact (ht.item (hwhere.intersections t List.mem_cons_self) hl (by omega) hm).mono fun e he =>
        he.2 (hwhere.first t rfl)
    · have hlength := length_operand_le Printer.isUnion level .bar hu
      exact ⟨(h u hu).starts_item, fun more hm => ((h u hu).item (hwhere.intersections u (List.mem_cons_of_mem _ hu))
        Lead.clear_space (by omega) hm).mono fun e he => he.1⟩

end

section

variable {source : List Char}

theorem starts_word {name : String} (h : isTypeName name ∨ name ∉ ["new", "readonly"]) (lead : Lead) :
    Starts [⟨lead, .word name⟩] := by
  have hn : name ∉ ["new", "readonly"] := by
    rcases h with h | h
    · intro hmem
      have hsub : ∀ w ∈ ["new", "readonly"], isTypeName w = false := by decide
      rw [hsub name hmem] at h
      cases h
    · exact h
  refine ⟨_, [], rfl, ?_, fun _ => .inl rfl⟩
  simpa [Atom.startsType] using hn

theorem readable_keyword {k : Keyword} (h : k ∈ predefined) : Readable source (.keyword k) :=
  .of_tight (fun _ _ => rfl) fun lead _ _ _ _ =>
    .of_primary (starts_word (.inr (by cases k <;> decide)) lead) fun _ hm => primary_keyword h hm

theorem readable_reference {name : String} (h : isTypeName name) : Readable source (.reference name false []) :=
  .of_tight (fun _ _ => rfl) fun lead _ _ _ _ => .of_primary (starts_word (.inl h) lead) fun _ hm => primary_name h hm

theorem starts_literal {l : Literal} (h : l.Legible) (lead : Lead) : Starts (literalLexemes lead l) := by
  cases l with
  | string value => exact ⟨_, [], rfl, rfl, fun _ => .inl rfl⟩
  | number value =>
    cases value with
    | float x => cases h
    | integer n =>
      rw [literalLexemes]
      split
      · exact ⟨_, _, rfl, rfl, fun hw => by cases hw⟩
      · exact ⟨_, [], rfl, rfl, fun hw => by cases hw⟩
  | boolean b => exact starts_word (.inr (by cases b <;> decide)) lead
  | null => exact starts_word (.inr (by decide)) lead
  | other text => cases h

theorem readable_literal {l : Literal} (h : l.Legible) : Readable source (.literal l) := by
  refine .of_tight (fun lead level => ?_) fun lead level depth mayEnd _ => ?_
  · cases l with
    | number value =>
      cases value with
      | float x => cases h
      | integer n =>
        rw [kindLexemes, literalLexemes]
        split <;> rfl
    | other text => cases h
    | _ => rfl
  · rw [kindLexemes]
    refine .of_primary (starts_literal h lead) fun more hm => ?_
    cases l with
    | string value => exact primary_string value
    | number value =>
      cases value with
      | float x => cases h
      | integer n => exact primary_number h
    | boolean b => exact primary_boolean b hm
    | null => exact primary_null hm
    | other text => cases h

theorem readable_array {kind : TypeKind} (hk : kind.Legible) (h : Readable source kind) (span : Option Span) :
    Readable source (.array ⟨kind, none, span⟩) := by
  have hw := isOperation_or kind
  refine .of_tight (fun lead level => ?_) fun lead level depth mayEnd hdepth => ?_
  · rw [kindLexemes, firstDoc_append (h.starts_operand hk hw), h.firstDoc_operand hw]
  · rw [kindLexemes, List.length_append] at hdepth
    rw [kindLexemes]
    exact (h.operand hk hw (by omega)).array

end

end TypeSchema
