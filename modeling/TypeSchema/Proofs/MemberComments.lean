import TypeSchema.Proofs.FileReading

namespace TypeSchema

/-- References by name, and unions and intersections of at least two such types. Each member may have a comment on one
line. -/
inductive TypeKind.Joined : TypeKind → Prop
  | reference {name : String} (hname : isTypeName name) : Joined (.reference name false [])
  | union {members : List TypeExpr} (two : 2 ≤ members.length) (docs : ∀ t ∈ members, ∀ d ∈ t.doc, IsLineDoc d)
      (each : ∀ t ∈ members, Joined t.kind) : Joined (.union members)
  | intersection {members : List TypeExpr} (two : 2 ≤ members.length)
      (docs : ∀ t ∈ members, ∀ d ∈ t.doc, IsLineDoc d) (each : ∀ t ∈ members, Joined t.kind) :
      Joined (.intersection members)

mutual

/-- A type without spans and without parentheses. The comment of parentheses is that of what they hold. -/
def TypeExpr.bared : TypeExpr → TypeExpr
  | ⟨kind, doc, _⟩ => kind.bared doc

def TypeKind.bared (doc : Option String) : TypeKind → TypeExpr
  | .union members => { kind := .union (baredAll members), doc }
  | .intersection members => { kind := .intersection (baredAll members), doc }
  | .parenthesized inner => { inner.bared with doc := inner.bared.doc.or doc }
  | kind => { kind, doc }

def baredAll : List TypeExpr → List TypeExpr
  | [] => []
  | t :: rest => t.bared :: baredAll rest

end

/-- The first member of a union as it is read: in front of an intersection, the first comment is the one that is found,
and it is found for the union, whose first member has it then. -/
def TypeExpr.leading (t : TypeExpr) : TypeExpr :=
  match t.kind with
  | .intersection (first :: rest) =>
    { t with kind := .intersection ({ first with doc := none } :: rest), doc := t.doc.or first.doc }
  | _ => t

/-- A later member of a union as it is read: in front of an intersection, the first comment is the one that is found,
and it is found for the intersection, whose first member has it then. -/
def TypeExpr.following (t : TypeExpr) : TypeExpr :=
  match t.kind with
  | .intersection (first :: rest) =>
    { t with kind := .intersection ({ first with doc := t.doc.or first.doc } :: rest), doc := none }
  | _ => t

mutual

/-- A type with the comments where they are found when it is read. -/
def TypeExpr.settled : TypeExpr → TypeExpr
  | ⟨kind, doc, span⟩ => ⟨kind.settled, doc, span⟩

def TypeKind.settled : TypeKind → TypeKind
  | .union (first :: rest) => .union (first.settled.leading :: (settledAll rest).map TypeExpr.following)
  | .intersection members => .intersection (settledAll members)
  | kind => kind

def settledAll : List TypeExpr → List TypeExpr
  | [] => []
  | t :: rest => t.settled :: settledAll rest

end

mutual

/-- Every comment stands where it is found for what it belongs to: in every union, an intersection in front has none
before its own first member, and an intersection behind it has none before itself. -/
def TypeExpr.Attached : TypeExpr → Prop
  | ⟨kind, _, _⟩ => kind.Attached

def TypeKind.Attached : TypeKind → Prop
  | .union members =>
    (∀ m ∈ members.head?, m.kind.leadingDoc = none) ∧ (∀ m ∈ members.tail, m.kind.isIntersection → m.doc = none) ∧
      AttachedAll members
  | .intersection members => AttachedAll members
  | _ => True

def AttachedAll : List TypeExpr → Prop
  | [] => True
  | t :: rest => t.Attached ∧ AttachedAll rest

end

theorem TypeExpr.bared_eq (t : TypeExpr) : t.bared = t.kind.bared t.doc := by
  obtain ⟨kind, doc, span⟩ := t
  rw [TypeExpr.bared]

theorem TypeExpr.settled_eq (t : TypeExpr) : t.settled = { t with kind := t.kind.settled } := by
  obtain ⟨kind, doc, span⟩ := t
  rw [TypeExpr.settled]

theorem TypeExpr.attached_iff (t : TypeExpr) : t.Attached ↔ t.kind.Attached := by
  obtain ⟨kind, doc, span⟩ := t
  rw [TypeExpr.Attached]

theorem baredAll_eq_map (ts : List TypeExpr) : baredAll ts = ts.map TypeExpr.bared := by
  induction ts with
  | nil => simp [baredAll]
  | cons t ts ih => simp [baredAll, ih]

theorem settledAll_eq_map (ts : List TypeExpr) : settledAll ts = ts.map TypeExpr.settled := by
  induction ts with
  | nil => simp [settledAll]
  | cons t ts ih => simp [settledAll, ih]

theorem attachedAll_iff (ts : List TypeExpr) : AttachedAll ts ↔ ∀ t ∈ ts, t.kind.Attached := by
  induction ts with
  | nil => simp [AttachedAll]
  | cons t ts ih => simp [AttachedAll, ih, t.attached_iff]

namespace TypeKind.Joined

variable {kind : TypeKind}

/-- What is put together is in no parentheses, and has the comment that it is given. -/
theorem bared_doc (h : kind.Joined) (doc : Option String) :
    (kind.bared doc).doc = doc ∧ kind.bared doc = { kind.bared none with doc } := by
  cases h with
  | reference | union | intersection => simp [TypeKind.bared]

theorem settled_doc (h : kind.Joined) (doc : Option String) :
    (kind.settled.bared doc).doc = doc ∧ kind.settled.bared doc = { kind.settled.bared none with doc } := by
  cases h with
  | reference | intersection => simp [TypeKind.settled, TypeKind.bared]
  | @union members => cases members <;> simp [TypeKind.settled, TypeKind.bared]

end TypeKind.Joined

theorem TypeExpr.settled_bared (t : TypeExpr) : t.settled.bared = t.kind.settled.bared t.doc := by
  rw [t.settled_eq, TypeExpr.bared]

/-- The first member of a union keeps its comments if none stands before its own first member. -/
theorem TypeExpr.leading_bared_iff {t : TypeExpr} (h : t.kind.Joined) :
    t.settled.leading.bared = t.bared ↔ t.kind.leadingDoc = none ∧ t.settled.bared = t.bared := by
  obtain ⟨kind, doc, span⟩ := t
  cases h with
  | reference => simp [settled, TypeKind.settled, leading, TypeKind.leadingDoc]
  | @union members =>
    cases members <;> simp [settled, TypeKind.settled, leading, TypeKind.leadingDoc]
  | @intersection members two docs each =>
    cases members with
    | nil => simp at two
    | cons g gs =>
      have hg := each g List.mem_cons_self
      simp only [settled, TypeKind.settled, settledAll, leading, TypeKind.leadingDoc, bared, TypeKind.bared, baredAll,
        g.settled_eq, g.bared_eq, TypeExpr.mk.injEq, TypeKind.intersection.injEq, List.cons.injEq, and_true]
      constructor
      · rintro ⟨⟨hfirst, hrest⟩, -⟩
        have hnone : g.doc = none := by
          rw [← (hg.bared_doc g.doc).1, ← hfirst, (hg.settled_doc none).1]
        exact ⟨hnone, by rwa [hnone] at hfirst ⊢, hrest⟩
      · rintro ⟨hnone, hfirst, hrest⟩
        rw [hnone] at hfirst ⊢
        exact ⟨⟨hfirst, hrest⟩, Option.or_none⟩

/-- A later member keeps its comments if it is no intersection with a comment of its own. -/
theorem TypeExpr.following_bared_iff {t : TypeExpr} (h : t.kind.Joined) :
    t.settled.following.bared = t.bared ↔ (t.kind.isIntersection → t.doc = none) ∧ t.settled.bared = t.bared := by
  obtain ⟨kind, doc, span⟩ := t
  cases h with
  | reference => simp [settled, TypeKind.settled, following, TypeKind.isIntersection]
  | @union members =>
    cases members <;> simp [settled, TypeKind.settled, following, TypeKind.isIntersection]
  | @intersection members two docs each =>
    cases members with
    | nil => simp at two
    | cons g gs =>
      simp only [settled, TypeKind.settled, settledAll, following, TypeKind.isIntersection, bared, TypeKind.bared,
        baredAll, g.settled_eq, g.bared_eq, TypeExpr.mk.injEq, TypeKind.intersection.injEq, List.cons.injEq, and_true,
        forall_const]
      constructor
      · rintro ⟨⟨hfirst, hrest⟩, hnone⟩
        rw [← hnone, Option.none_or] at hfirst
        exact ⟨hnone.symm, hfirst, hrest⟩
      · rintro ⟨rfl, hfirst, hrest⟩
        exact ⟨⟨hfirst, hrest⟩, rfl⟩

theorem TypeKind.Joined.settled_iff {kind : TypeKind} (h : kind.Joined) (doc : Option String) :
    kind.settled.bared doc = kind.bared doc ↔ kind.Attached := by
  induction h generalizing doc with
  | reference => simp [TypeKind.settled, TypeKind.Attached]
  | @union members two docs each ih =>
    cases members with
    | nil => simp at two
    | cons t ts =>
      have hmember (u : TypeExpr) (hu : u ∈ t :: ts) : u.settled.bared = u.bared ↔ u.kind.Attached := by
        rw [u.settled_bared, u.bared_eq, ih u hu]
      simp only [TypeKind.settled, TypeKind.bared, baredAll_eq_map, settledAll_eq_map, TypeKind.Attached,
        attachedAll_iff, TypeExpr.mk.injEq, TypeKind.union.injEq, List.map_cons, List.map_map, List.cons.injEq,
        List.map_inj_left, and_true, Function.comp_apply, List.head?_cons, List.tail_cons, Option.mem_some_iff,
        List.forall_mem_cons]
      rw [TypeExpr.leading_bared_iff (each t List.mem_cons_self), hmember t List.mem_cons_self]
      have hrest : (∀ u ∈ ts, u.settled.following.bared = u.bared) ↔
          (∀ u ∈ ts, u.kind.isIntersection → u.doc = none) ∧ ∀ u ∈ ts, u.kind.Attached := by
        rw [← forall₂_and]
        refine forall₂_congr fun u hu => ?_
        rw [TypeExpr.following_bared_iff (each u (List.mem_cons_of_mem _ hu)), hmember u (List.mem_cons_of_mem _ hu)]
      rw [hrest]
      simp only [forall_eq']
      tauto
  | @intersection members two docs each ih =>
    simp only [TypeKind.settled, TypeKind.bared, baredAll_eq_map, settledAll_eq_map, TypeKind.Attached,
      attachedAll_iff, TypeExpr.mk.injEq, TypeKind.intersection.injEq, List.map_map, List.map_inj_left, and_true,
      Function.comp_apply]
    refine forall₂_congr fun u hu => ?_
    rw [u.settled_bared, u.bared_eq, ih u hu]

theorem spells_operandsAfter {operator : Mark} (hop : operator.joins ' ' = false) {wraps : TypeKind → Bool}
    {level : Nat} {members : List TypeExpr} (docs : ∀ t ∈ members, ∀ d ∈ t.doc, IsLineDoc d)
    (each : ∀ t ∈ members, ∀ lead : Lead, lead.Proper →
      Spells (kindLexemes lead level t.kind) (lead.chars ++ (Printer.typeKind level t.kind).toList)) :
    Spells (operandsAfterLexemes operator wraps level members) (operandsText operator wraps level members) := by
  induction members with
  | nil => exact Spells.nil
  | cons t rest ih =>
    obtain ⟨kind, doc, span⟩ := t
    exact .operand hop span (fun d hd => (docs _ List.mem_cons_self d hd).isDoc) (each _ List.mem_cons_self)
      (ih (fun u hu => docs u (List.mem_cons_of_mem _ hu)) fun u hu => each u (List.mem_cons_of_mem _ hu))

theorem TypeKind.Joined.spells {kind : TypeKind} (h : kind.Joined) (level : Nat) {lead : Lead} (hl : lead.Proper) :
    Spells (kindLexemes lead level kind) (lead.chars ++ (Printer.typeKind level kind).toList) := by
  induction h generalizing lead with
  | @reference name hname =>
    rw [kindLexemes, Printer.typeKind]
    exact Spells.word hl (isPlainWord_of_isTypeName hname)
  | @union members two docs each ih =>
    match members with
    | [] => simp at two
    | ⟨kind, doc, span⟩ :: rest =>
      have hfirst := Spells.wrapped (Printer.isUnion kind)
        (hl.inline level fun d hd => (docs _ List.mem_cons_self d hd).isDoc) fun lead hl => ih _ List.mem_cons_self hl
      have hrest : Spells (operandsAfterLexemes .bar Printer.isUnion level rest)
          (operandsText .bar Printer.isUnion level rest) :=
        spells_operandsAfter (by decide) (fun u hu => docs u (List.mem_cons_of_mem _ hu)) fun u hu lead hl =>
          ih u (List.mem_cons_of_mem _ hu) hl
      have := hfirst.append hrest fun s hs => breaks_operandsText .bar Printer.isUnion level rest hs
      simpa [kindLexemes, Printer.typeKind, toList_unionAfter] using this
  | @intersection members two docs each ih =>
    match members with
    | [] => simp at two
    | ⟨kind, doc, span⟩ :: rest =>
      have hfirst := Spells.wrapped (Printer.isOperation kind)
        (hl.inline level fun d hd => (docs _ List.mem_cons_self d hd).isDoc) fun lead hl => ih _ List.mem_cons_self hl
      have hrest : Spells (operandsAfterLexemes .ampersand Printer.isOperation level rest)
          (operandsText .ampersand Printer.isOperation level rest) :=
        spells_operandsAfter (by decide) (fun u hu => docs u (List.mem_cons_of_mem _ hu)) fun u hu lead hl =>
          ih u (List.mem_cons_of_mem _ hu) hl
      have := hfirst.append hrest fun s hs => breaks_operandsText .ampersand Printer.isOperation level rest hs
      simpa [kindLexemes, Printer.typeKind, toList_intersectionAfter] using this

/-- Of several comments the first one is found, and one that stands further off only if there is none. -/
theorem Lead.docAfter_eq (gap : List Char) (doc : Option String) (comments : List (List Char × List Char)) :
    docAfter gap doc comments = (docAfter gap none comments).or doc := by
  induction comments generalizing gap doc with
  | nil => rfl
  | cons c rest ih =>
    obtain ⟨before, comment⟩ := c
    rw [docAfter, docAfter]
    split
    · rfl
    · split
      · rw [ih _ (some (String.ofList comment)), Option.or_assoc, Option.some_or]
      · exact ih before doc

/-- A comment on one line is found as it is, behind those that stand before it. -/
theorem Lead.doc_commented (lead : Lead) (level : Nat) {doc : String} (h : IsLineDoc doc) {gap : List Char}
    (hgap : gap.count '\n' ≤ 1) : (lead.commented (commentChars level doc) gap).doc = lead.doc.or (some doc) := by
  have hopens : "/**".toList.isPrefixOf (commentChars level doc) = true :=
    List.isPrefixOf_iff_prefix.mpr (h.isDoc.opens level)
  rw [Lead.doc, commented, List.reverse_append, List.reverse_singleton, List.singleton_append, docAfter,
    if_neg (Nat.not_lt.mpr hgap), if_pos hopens, docAfter_eq, h.commentChars, String.ofList_toList]
  rfl

theorem Lead.doc_inline (lead : Lead) (level : Nat) {doc : Option String} (h : ∀ d ∈ doc, IsLineDoc d) :
    (lead.inline level doc).doc = lead.doc.or doc := by
  cases doc with
  | none => rw [Lead.inline, Option.or_none]
  | some d => exact lead.doc_commented level (h d rfl) (by decide)

theorem Lead.doc_above (lead : Lead) (level : Nat) {doc : Option String} (h : ∀ d ∈ doc, IsLineDoc d) :
    (lead.above level doc).doc = lead.doc.or doc := by
  cases doc with
  | none => rw [Lead.above, Option.or_none]
  | some d => exact lead.doc_commented level (h d rfl) (by simp [indent_eq, List.count_replicate])

open Reader TypeReader

/-- A type that is read for one of the given kind: whatever comment it is given, it is that one, with the comments
inside it where they are found. -/
structure Settled (kind : TypeKind) (e : TypeExpr) : Prop where
  noDoc : e.doc = none
  isOperation : Printer.isOperation e.kind = false
  bared : ∀ doc, ({ e with doc } : TypeExpr).bared = kind.settled.bared doc

theorem Settled.withDoc {kind : TypeKind} {e : TypeExpr} (h : Settled kind e) (doc : Option String) :
    (e.withDoc doc).bared = kind.settled.bared doc := by
  rw [← h.bared doc, TypeExpr.withDoc]
  have := h.isOperation
  split
  · next hk => rw [hk] at this; cases this
  · next hk => rw [hk] at this; cases this
  · rfl

/-- A type that is read as a member of a union, whatever comment it had: the comment in front of it is given to it if
it stands in front, and behind a bar to the outermost type that starts there. -/
structure SettledMember (kind : TypeKind) (e : TypeExpr) : Prop where
  noDoc : e.doc = none
  leading : ∀ doc span, ({ e with doc := doc.or kind.leadingDoc } : TypeExpr).bared =
    (⟨kind.settled, doc, span⟩ : TypeExpr).leading.bared
  following : ∀ doc span, (e.withDoc (doc.or kind.leadingDoc)).bared =
    (⟨kind.settled, doc, span⟩ : TypeExpr).following.bared

/-- A type that is read wherever it is printed. -/
structure Attributed (source : List Char) (kind : TypeKind) : Prop where
  starts : ∀ lead level, Starts (kindLexemes lead level kind)
  lead : Printer.isUnion kind = false → ∀ lead level,
    firstDoc (kindLexemes lead level kind) = lead.doc.or kind.leadingDoc
  operand : Printer.isOperation kind = false → ∀ lead level depth mayEnd more,
    (kindLexemes lead level kind).length ≤ depth → Next operandEnds more →
    Reads (operand source (within source depth) mayEnd) (kindLexemes lead level kind) more (Settled kind)
  item : Printer.isUnion kind = false → ∀ lead level depth mayEnd more,
    (kindLexemes lead level kind).length ≤ depth → Next itemEnds more →
    Reads (intersection source (within source depth) mayEnd) (kindLexemes lead level kind) more (SettledMember kind)
  whole : ∀ lead level depth mayEnd more, lead.doc = none →
    (kindLexemes lead level kind).length ≤ depth → Next typeEnds more →
    Reads (type source (within source depth) mayEnd) (kindLexemes lead level kind) more
      fun e => (e.withDoc (firstDoc (kindLexemes lead level kind))).bared = kind.settled.bared none

theorem leadingDoc_of_not_isIntersection {kind : TypeKind} (h : kind.isIntersection = false) :
    kind.leadingDoc = none ∧ ∀ doc span, (⟨kind.settled, doc, span⟩ : TypeExpr).leading = ⟨kind.settled, doc, span⟩ ∧
      (⟨kind.settled, doc, span⟩ : TypeExpr).following = ⟨kind.settled, doc, span⟩ := by
  cases kind with
  | intersection => cases h
  | union members => cases members <;> exact ⟨rfl, fun doc span => ⟨rfl, rfl⟩⟩
  | _ => exact ⟨rfl, fun doc span => ⟨rfl, rfl⟩⟩

theorem isIntersection_of_wraps {kind : TypeKind}
    (h : Printer.isUnion kind = true ∨ Printer.isOperation kind = false) : kind.isIntersection = false := by
  revert h
  cases kind <;> simp [Printer.isUnion, Printer.isOperation, TypeKind.isIntersection]

theorem Settled.member {kind : TypeKind} (hk : kind.isIntersection = false) {e : TypeExpr} (h : Settled kind e) :
    SettledMember kind e := by
  obtain ⟨hdoc, hsame⟩ := leadingDoc_of_not_isIntersection hk
  refine ⟨h.noDoc, fun doc span => ?_, fun doc span => ?_⟩
  · rw [hdoc, Option.or_none, h.bared, (hsame doc span).1, TypeExpr.bared]
  · rw [hdoc, Option.or_none, h.withDoc, (hsame doc span).2, TypeExpr.bared]

theorem TypeExpr.following_of_noDoc {t : TypeExpr} (h : t.doc = none) : t.following = t := by
  obtain ⟨kind, doc, span⟩ := t
  obtain rfl : doc = none := h
  rw [following]
  split
  · next first rest hk =>
    obtain rfl : kind = .intersection (first :: rest) := hk
    obtain ⟨kind, doc, span⟩ := first
    simp
  · rfl

/-- A member of a union that is a type of its own. -/
theorem SettledMember.whole {kind : TypeKind} {e : TypeExpr} (h : SettledMember kind e) :
    (e.withDoc kind.leadingDoc).bared = kind.settled.bared none := by
  have := h.following none none
  rwa [Option.none_or, TypeExpr.following_of_noDoc rfl, TypeExpr.bared] at this

namespace Attributed

variable {source : List Char} {kind : TypeKind}

theorem of_item (starts : ∀ lead level, Starts (kindLexemes lead level kind))
    (lead : ∀ lead level, firstDoc (kindLexemes lead level kind) = lead.doc.or kind.leadingDoc)
    (operand : Printer.isOperation kind = false → ∀ lead level depth mayEnd more,
      (kindLexemes lead level kind).length ≤ depth → Next operandEnds more →
      Reads (TypeReader.operand source (within source depth) mayEnd) (kindLexemes lead level kind) more (Settled kind))
    (item : ∀ lead level depth mayEnd more, (kindLexemes lead level kind).length ≤ depth → Next itemEnds more →
      Reads (TypeReader.intersection source (within source depth) mayEnd) (kindLexemes lead level kind) more
        (SettledMember kind)) : Attributed source kind where
  starts
  lead _ := lead
  operand
  item _ := item
  whole lead' level depth mayEnd more hl hdepth hm := by
    rw [lead, hl, Option.none_or]
    exact (Reads.type hm (reads_operation_one (show Mark.bar ∈ [Mark.bar, .ampersand] by decide) (by decide) hm
      (starts lead' level) (item lead' level depth mayEnd _ hdepth (hm.mono (by decide))))).mono fun e he => he.whole

theorem reference {name : String} (h : isTypeName name) : Attributed source (.reference name false []) := by
  have hstarts (lead : Lead) (level : Nat) : Starts (kindLexemes lead level (.reference name false [])) :=
    starts_word (.inl h) lead
  have hoperand (lead : Lead) (level depth : Nat) (mayEnd : Bool) (more : List Lexeme) (hm : Next operandEnds more) :
      Reads (TypeReader.operand source (within source depth) mayEnd) (kindLexemes lead level (.reference name false []))
        more (Settled (.reference name false [])) := by
    refine Reads.operand (hstarts lead level) hm ?_
    refine Reads.tightType (c := 0) (fun more hm => primary_reference h hm) ?_ hm
    rintro _ _ ⟨span, rfl⟩ rfl
    exact ⟨rfl, rfl, fun doc => rfl⟩
  refine .of_item hstarts (fun lead _ => (Option.or_none ..).symm) (fun _ lead level depth mayEnd more _ hm =>
    hoperand lead level depth mayEnd more hm) fun lead level depth mayEnd more _ hm => ?_
  exact (reads_operation_one (show Mark.ampersand ∈ [Mark.bar, .ampersand] by decide) (by decide) hm
    (hstarts lead level) (hoperand lead level depth mayEnd more (hm.mono (by decide)))).mono fun e he => he.member rfl

variable (h : Attributed source kind) {lead : Lead} {level depth : Nat} {mayEnd : Bool} {more : List Lexeme}
include h

/-- In parentheses, every type stands on its own. -/
theorem parens (hk : kind.Joined)
    (hdepth : (wrappedLexemes true lead fun lead => kindLexemes lead level kind).length ≤ depth)
    (hm : Next operandEnds more) :
    Reads (TypeReader.operand source (within source depth) mayEnd)
      (wrappedLexemes true lead fun lead => kindLexemes lead level kind) more (Settled kind) := by
  obtain ⟨depth, rfl⟩ : ∃ d, depth = d + 1 := ⟨depth - 1, by simp [wrappedLexemes] at hdepth; omega⟩
  have hinner : (kindLexemes {} level kind).length ≤ depth := by
    simp [wrappedLexemes] at hdepth
    omega
  have hprimary (more : List Lexeme) : Reads (primary source (within source (depth + 1)) mayEnd)
      (wrappedLexemes true lead fun lead => kindLexemes lead level kind) more (Settled kind) := by
    rw [primary]
    refine Reads.peek rfl fun t ht => ?_
    have htext : t.text = "(" := ht.text
    simp only [ht.kind, Atom.kind, htext]
    have hread := h.whole {} level depth false (⟨{}, .mark .closeParen⟩ :: more) rfl hinner
      ⟨{}, .closeParen, more, by decide, rfl⟩
    have hinside : Reads (documented (type source (within source depth) false)) (kindLexemes {} level kind) _
        fun inner => inner.bared = kind.settled.bared none := Reads.documented (h.starts {} level) hread
    refine Reads.next fun _ _ => Reads.bind hinside fun inner hbared =>
      Reads.expect rfl (Reads.finish fun span => ⟨rfl, rfl, fun doc => ?_⟩)
    change ({ inner.bared with doc := inner.bared.doc.or doc } : TypeExpr) = _
    rw [hbared, (hk.settled_doc none).1, Option.none_or, (hk.settled_doc doc).2]
  refine Reads.operand ⟨_, _, rfl, rfl, fun hw => by cases hw⟩ hm ?_
  rw [← List.append_nil (wrappedLexemes _ _ _)]
  refine Reads.tightType (c := 0) (fun more _ => hprimary more) ?_ hm
  rintro e _ he rfl
  exact he

theorem starts_wrapped (wraps : Bool) : Starts (wrappedLexemes wraps lead fun lead => kindLexemes lead level kind) := by
  cases wraps with
  | true => exact ⟨_, _, rfl, rfl, fun hw => by cases hw⟩
  | false => exact h.starts lead level

/-- An operand stands on its own: it is no operation, or it stands in parentheses. -/
theorem wrapped (hk : kind.Joined) {wraps : Bool} (hw : wraps = true ∨ Printer.isOperation kind = false)
    (hdepth : (wrappedLexemes wraps lead fun lead => kindLexemes lead level kind).length ≤ depth)
    (hm : Next operandEnds more) :
    Reads (TypeReader.operand source (within source depth) mayEnd)
      (wrappedLexemes wraps lead fun lead => kindLexemes lead level kind) more (Settled kind) := by
  cases wraps with
  | true => exact h.parens hk hdepth hm
  | false => exact h.operand (hw.resolve_left (by decide)) lead level depth mayEnd more hdepth hm

end Attributed

/-- A member that is read wherever it is printed, with a comment on one line or with none. -/
structure AttributedMember (source : List Char) (t : TypeExpr) : Prop where
  docs : ∀ d ∈ t.doc, IsLineDoc d
  joined : t.kind.Joined
  attributed : Attributed source t.kind

section

variable {source : List Char} {t : TypeExpr} {lead : Lead} {level depth : Nat} {mayEnd : Bool} {more : List Lexeme}
  {rest : List TypeExpr}

namespace AttributedMember

variable (h : AttributedMember source t)
include h

theorem starts (wraps : TypeKind → Bool) : Starts (operandLexemes wraps lead level t) :=
  h.attributed.starts_wrapped (wraps t.kind)

/-- A member of an intersection has the comment in front of it. -/
theorem firstDoc_operand :
    firstDoc (operandLexemes Printer.isOperation lead level t) = lead.doc.or t.doc := by
  rw [← lead.doc_inline level h.docs]
  cases hop : Printer.isOperation t.kind with
  | true =>
    rw [operandLexemes, hop]
    rfl
  | false =>
    obtain ⟨hunion, hleading⟩ := isUnion_of_not_operation hop
    rw [operandLexemes, hop]
    change firstDoc (kindLexemes _ level t.kind) = _
    rw [h.attributed.lead hunion, hleading, Option.or_none]

theorem firstDoc_item :
    firstDoc (operandLexemes Printer.isUnion lead level t) = lead.doc.or (t.doc.or t.kind.leadingDoc) := by
  rw [← Option.or_assoc, ← lead.doc_inline level h.docs]
  cases hunion : Printer.isUnion t.kind with
  | true =>
    rw [operandLexemes, hunion, (leadingDoc_of_not_isIntersection (isIntersection_of_wraps (.inl hunion))).1,
      Option.or_none]
    rfl
  | false =>
    rw [operandLexemes, hunion]
    exact h.attributed.lead hunion _ level

theorem operand (hdepth : (operandLexemes Printer.isOperation lead level t).length ≤ depth)
    (hm : Next operandEnds more) :
    Reads (TypeReader.operand source (within source depth) mayEnd) (operandLexemes Printer.isOperation lead level t) more
      (Settled t.kind) :=
  h.attributed.wrapped h.joined (isOperation_or t.kind) hdepth hm

/-- A member of a union is an intersection without parentheses, or an operand. -/
theorem item (hdepth : (operandLexemes Printer.isUnion lead level t).length ≤ depth) (hm : Next itemEnds more) :
    Reads (TypeReader.intersection source (within source depth) mayEnd) (operandLexemes Printer.isUnion lead level t)
      more (SettledMember t.kind) := by
  cases hunion : Printer.isUnion t.kind with
  | true =>
    have hread : Reads (TypeReader.operand source (within source depth) mayEnd)
        (operandLexemes Printer.isUnion lead level t) more (Settled t.kind) :=
      h.attributed.wrapped h.joined (.inl hunion) hdepth (hm.mono (by decide))
    exact (reads_operation_one (show Mark.ampersand ∈ [Mark.bar, .ampersand] by decide) (by decide) hm
      (h.starts Printer.isUnion) hread).mono fun e he => he.member (isIntersection_of_wraps (.inl hunion))
  | false =>
    rw [operandLexemes, hunion] at hdepth ⊢
    exact h.attributed.item hunion _ level depth mayEnd more hdepth hm

end AttributedMember

/-- What is read behind the first member. -/
theorem baredAll_of_forall₂ {f : TypeExpr → TypeExpr} {es : List TypeExpr}
    (h : List.Forall₂ (fun e u => e.bared = (f u).bared) es rest) : baredAll es = baredAll (rest.map f) := by
  induction h with
  | nil => rfl
  | cons he _ ih => rw [List.map_cons, baredAll, baredAll, he, ih]

theorem attributed_intersection (ht : AttributedMember source t) (h : ∀ u ∈ rest, AttributedMember source u)
    (hne : rest ≠ []) : Attributed source (.intersection (t :: rest)) := by
  have hstarts (lead : Lead) (level : Nat) : Starts (kindLexemes lead level (.intersection (t :: rest))) := by
    rw [kindLexemes_intersection]
    exact (ht.starts Printer.isOperation).operands (by decide) rest
  refine .of_item hstarts (fun lead level => ?_) (fun hop => by cases hop) fun lead level depth mayEnd more hdepth hm => ?_
  · rw [kindLexemes_intersection, firstDoc_append (ht.starts Printer.isOperation), ht.firstDoc_operand]
    rfl
  · rw [kindLexemes_intersection] at hdepth ⊢
    rw [List.length_append] at hdepth
    refine (reads_operation (R := fun e u => e.bared = u.settled.bared)
      (show Mark.ampersand ∈ [Mark.bar, .ampersand] by decide) (by decide)
      (show ∀ m ∈ .ampersand :: itemEnds, m ∈ operandEnds by decide) hm (ht.starts Printer.isOperation)
      (fun more hm => ht.operand (by omega) hm) hne
      (fun u hu => (h u hu).starts Printer.isOperation) fun u hu more hm => ?_).mono ?_
    · have hlength := length_operand_le Printer.isOperation level .ampersand hu
      refine ((h u hu).operand (by omega) hm).mono fun e he => ?_
      rw [he.withDoc, (h u hu).firstDoc_operand, show Lead.space.doc = none from rfl, Option.none_or, u.settled_bared]
    · rintro _ ⟨⟨kind, doc, span'⟩, es, span, rfl, he, hes⟩
      obtain rfl : doc = none := he.noDoc
      have hrest : baredAll es = baredAll (settledAll rest) := by
        rw [settledAll_eq_map]
        exact baredAll_of_forall₂ hes
      refine ⟨rfl, fun doc _ => ?_, fun doc _ => ?_⟩
      · have hfirst := he.bared none
        rw [TypeExpr.bared] at hfirst
        simp only [TypeExpr.bared, TypeKind.bared, baredAll, TypeKind.settled, settledAll, TypeExpr.leading,
          TypeKind.leadingDoc, t.settled_eq, hfirst, hrest]
      · have hfirst := he.bared (doc.or t.doc)
        rw [TypeExpr.bared] at hfirst
        simp only [TypeExpr.withDoc, Option.none_or, TypeExpr.bared, TypeKind.bared, baredAll, TypeKind.settled,
          settledAll, TypeExpr.following, TypeKind.leadingDoc, t.settled_eq, hfirst, hrest]

theorem attributed_union (ht : AttributedMember source t) (h : ∀ u ∈ rest, AttributedMember source u)
    (hne : rest ≠ []) : Attributed source (.union (t :: rest)) where
  starts lead level := by
    rw [kindLexemes_union]
    exact (ht.starts Printer.isUnion).operands (by decide) rest
  lead hunion := by cases hunion
  operand hop := by cases hop
  item hunion := by cases hunion
  whole lead level depth mayEnd more hl hdepth hm := by
    rw [kindLexemes_union] at hdepth ⊢
    rw [List.length_append] at hdepth
    rw [firstDoc_append (ht.starts Printer.isUnion), ht.firstDoc_item, hl, Option.none_or]
    refine Reads.type hm ((reads_operation (R := fun e u => e.bared = u.settled.following.bared)
      (show Mark.bar ∈ [Mark.bar, .ampersand] by decide) (by decide)
      (show ∀ m ∈ .bar :: typeEnds, m ∈ itemEnds by decide) hm (ht.starts Printer.isUnion)
      (fun more hm => ht.item (by omega) hm) hne
      (fun u hu => (h u hu).starts Printer.isUnion) fun u hu more hm => ?_).mono ?_)
    · have hlength := length_operand_le Printer.isUnion level .bar hu
      refine ((h u hu).item (by omega) hm).mono fun e he => ?_
      rw [(h u hu).firstDoc_item, show Lead.space.doc = none from rfl, Option.none_or, he.following u.doc u.span,
        u.settled_eq]
    · rintro _ ⟨⟨kind, doc, span'⟩, es, span, rfl, he, hes⟩
      obtain rfl : doc = none := he.noDoc
      have hrest : baredAll es = baredAll ((settledAll rest).map TypeExpr.following) := by
        rw [settledAll_eq_map, List.map_map]
        exact baredAll_of_forall₂ hes
      have hfirst := he.leading t.doc t.span
      rw [TypeExpr.bared] at hfirst
      simp only [TypeExpr.withDoc, Option.none_or, TypeExpr.bared, TypeKind.bared, baredAll, TypeKind.settled,
        t.settled_eq, hfirst, hrest]

end

theorem TypeKind.Joined.attributed {kind : TypeKind} (h : kind.Joined) (source : List Char) :
    Attributed source kind := by
  induction h with
  | reference hname => exact .reference hname
  | @union members two docs each ih =>
    match members with
    | [] | [_] => simp at two
    | t :: u :: rest =>
      have hmember (v : TypeExpr) (hv : v ∈ t :: u :: rest) : AttributedMember source v :=
        ⟨docs v hv, each v hv, ih v hv⟩
      exact attributed_union (hmember t List.mem_cons_self) (fun v hv => hmember v (List.mem_cons_of_mem _ hv)) (by simp)
  | @intersection members two docs each ih =>
    match members with
    | [] | [_] => simp at two
    | t :: u :: rest =>
      have hmember (v : TypeExpr) (hv : v ∈ t :: u :: rest) : AttributedMember source v :=
        ⟨docs v hv, each v hv, ih v hv⟩
      exact attributed_intersection (hmember t List.mem_cons_self) (fun v hv => hmember v (List.mem_cons_of_mem _ hv))
        (by simp)

/-- A text whose tokens show one declaration is read as that. -/
theorem SourceFile.ofText_declaration {text : String} {l : Lexeme} {ls : List Lexeme} {P : Statement → Prop}
    (hl : l.atom = .word "export")
    (h : ∀ depth, (l :: ls).length ≤ depth → Reads (FileReader.declaration text.toList (within text.toList (depth + 1))
      (FileReader.block text.toList (within text.toList (depth + 1)) (depth + 1))) (l :: ls) [⟨{}, .finish⟩] P)
    (ht : List.Forall₂ Token.Shows (Lexer.tokens text) (l :: ls ++ [⟨{}, .finish⟩])) :
    ∃ s, (SourceFile.ofText text).statements = [s] ∧ P s := by
  have hlength : (Lexer.tokens text).length = (l :: ls).length + 1 := by
    rw [ht.length_eq, List.length_append, List.length_singleton]
  have hfile : Reads (FileReader.statements text.toList (within text.toList (Lexer.tokens text).length)
      (FileReader.block text.toList (within text.toList (Lexer.tokens text).length) (Lexer.tokens text).length)
      fun t => t.kind == .finish) (l :: ls) [⟨{}, .finish⟩] fun ss => ∃ s, ss = [s] ∧ P s := by
    rw [hlength, FileReader.statements]
    refine Reads.bind_last (P := fun rs => ∃ s, rs = [some s] ∧ P s) (Reads.repeatWhile ?_) ?_
    · rw [List.length_append, List.length_singleton, ← List.append_nil (l :: ls)]
      refine reads_statements_step (l := l) rfl (fun t ht => (not_atEnd ht (.inl hl)).1) (h _ (by simp))
        (R := (· = [])) (reads_statements_stop (l := ⟨{}, .finish⟩) rfl (fun t ht => ?_) rfl) ?_
      · rw [ht.kind]
        rfl
      · rintro s _ hs rfl
        exact ⟨s, rfl, hs⟩
    · rintro _ ⟨s, rfl, hs⟩
      exact Reads.pure ⟨s, rfl, hs⟩
  obtain ⟨ss, stop, hss, s, rfl, hs⟩ := hfile _ _ 0 (List.forall₂_take_append _ _ _ ht)
    (List.forall₂_drop_append _ _ _ ht)
  rw [List.take_append_drop] at hss
  exact ⟨s, by rw [ofText, hss], hs⟩

/-- An alias is read as itself, but for the places of the comments inside its value. -/
theorem SourceFile.ofText_alias (d : Alias) (hname : isTypeName d.name) (hexported : d.exported)
    (hparams : d.typeParams = []) (hdoc : ∀ doc ∈ d.doc, IsLineDoc doc) (hvalue : d.value.doc = none)
    (hk : d.value.kind.Joined) :
    ∃ value span, (ofText (Printer.statement (.typeAlias d))).statements = [.typeAlias { d with value, span }] ∧
      value.bared = d.value.settled.bared := by
  have hspells := spells_alias Lead.proper_empty hname hexported hparams (fun doc h => (hdoc doc h).isDoc) hvalue
    (hk.spells 0 Lead.proper_space)
  have htext : (Printer.statement (.typeAlias d)).toList = spelled (declarationLexemes {} (.typeAlias d)) := by
    rw [hspells.spelled, Lead.chars_empty, List.nil_append]
  have hstart : (Printer.statement (.typeAlias d)).toList.head? ≠ some '#' := by
    rw [htext, declarationLexemes]
    exact head?_spelled (Lead.proper_empty.above 0 fun doc h => (hdoc doc h).isDoc) (by simp [Atom.text])
  have htokens := Lexer.tokens_spelled (hspells.apart [] (by simp [Breaks])) Lead.proper_empty
    (by rw [spelled_append, ← htext]; simp [Lexeme.chars, Atom.text]) hstart
  obtain ⟨name, exported, declare, params, value, doc, span⟩ := d
  obtain rfl : exported = true := hexported
  obtain rfl : params = [] := hparams
  rw [declarationLexemes] at htokens
  have hread := hk.attributed (Printer.statement (.typeAlias ⟨name, true, declare, [], value, doc, span⟩)).toList
  have hstatement := ofText_declaration (P := fun s => ∃ value' span', value'.bared = value.settled.bared ∧
    s = .typeAlias { name, exported := true, declare, value := value', doc, span := span' }) rfl ?_ htokens
  · obtain ⟨s, hs, value', span', hbared, rfl⟩ := hstatement
    exact ⟨value', span', hs, hbared⟩
  · intro depth hdepth
    have hlength : (kindLexemes .space 0 value.kind).length ≤ depth := by
      simp only [List.length_cons, List.length_append] at hdepth
      omega
    refine reads_declaration_of_word (show "type" ∈ ["interface", "type"] by decide) fun start hstart => ?_
    have hinside := Reads.documented (P := fun e => e.bared = value.settled.bared) (hread.starts .space 0)
      ((hread.whole .space 0 depth true [⟨{}, .mark .semicolon⟩, ⟨{}, .finish⟩] rfl hlength
        ⟨{}, .semicolon, _, by decide, rfl⟩).mono fun e he => by
          rw [he, value.settled_bared, show value.doc = none from hvalue])
    refine (reads_aliasOf hinside).mono ?_
    rintro _ ⟨value', span', hbared, rfl⟩
    refine ⟨value', span', hbared, ?_⟩
    rw [hstart, Lead.doc_above _ 0 hdoc, show ({} : Lead).doc = none from rfl, Option.none_or]

/-- Printed as the value of an alias and read again, a type that is put together has every comment where it was, unless
an intersection stands in a union without parentheses and a comment stands in front of it. There the first comment
found belongs to the outermost type that starts behind it: to the first member of a union, and behind a bar to the
first member of the intersection. -/
theorem SourceFile.comments_read_back (d : Alias) (hname : isTypeName d.name) (hexported : d.exported)
    (hparams : d.typeParams = []) (hdoc : ∀ doc ∈ d.doc, IsLineDoc doc) (hvalue : d.value.doc = none)
    (hk : d.value.kind.Joined) :
    ∃ value span, (ofText (Printer.statement (.typeAlias d))).statements = [.typeAlias { d with value, span }] ∧
      value.bared = d.value.settled.bared ∧ (value.bared = d.value.bared ↔ d.value.Attached) := by
  obtain ⟨value, span, hread, hbared⟩ := ofText_alias d hname hexported hparams hdoc hvalue hk
  refine ⟨value, span, hread, hbared, ?_⟩
  rw [hbared, d.value.settled_bared, d.value.bared_eq, hk.settled_iff, d.value.attached_iff]

/-- What is said of an intersection behind a bar is read for its first member. -/
theorem SourceFile.comments_read_back_moved :
    let said (t : TypeExpr) : TypeExpr := { t with doc := some "/** D. */" }
    let both (first : TypeExpr) : TypeExpr := .of (.intersection [first, .reference "C"])
    let printed : TypeExpr := .of (.union [.reference "A", said (both (.reference "B"))])
    let found : TypeExpr := .of (.union [.reference "A", both (said (.reference "B"))])
    let text := Printer.statement (.typeAlias { name := "T", exported := true, value := printed })
    text = "export type T = A | /** D. */ B & C;" ∧
      ∃ value span, (ofText text).statements = [.typeAlias { name := "T", exported := true, value, span }] ∧
        value.bared = found ∧ value.bared ≠ printed.bared := by
  intro said both printed found text
  have hdoc : IsLineDoc "/** D. */" := ⟨" D. ".toList, by decide, open_of_not_mem (.inr (by decide)), by decide⟩
  have hname (name : String) (h : isTypeName name) : (TypeExpr.reference name).kind.Joined := .reference h
  have hboth : (both (.reference "B")).kind.Joined := by
    refine .intersection (by decide) (by simp [TypeExpr.reference, TypeExpr.of]) ?_
    simpa using ⟨hname "B" (by decide +kernel), hname "C" (by decide +kernel)⟩
  have hk : printed.kind.Joined := by
    refine .union (by decide) (by simp [said, TypeExpr.reference, TypeExpr.of, hdoc]) ?_
    simpa using ⟨hname "A" (by decide +kernel), hboth⟩
  obtain ⟨value, span, hread, hbared, hiff⟩ := comments_read_back { name := "T", exported := true, value := printed }
    (by decide +kernel) rfl rfl (by simp) rfl hk
  refine ⟨by decide +kernel, value, span, hread, hbared, fun hsame => ?_⟩
  have hattached := hiff.mp hsame
  simp [printed, said, both, TypeExpr.of, TypeExpr.Attached, TypeKind.Attached, TypeKind.isIntersection] at hattached

end TypeSchema
