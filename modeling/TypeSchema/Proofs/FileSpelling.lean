import TypeSchema.Proofs.FileRecovery
import TypeSchema.Proofs.Spelling

namespace TypeSchema

def parentsAfterLexemes : List TypeExpr → List Lexeme
  | [] => []
  | t :: rest => ⟨{}, .mark .comma⟩ :: (kindLexemes .space 0 t.kind ++ parentsAfterLexemes rest)

def heritageLexemes : List TypeExpr → List Lexeme
  | [] => []
  | t :: rest => ⟨.space, .word "extends"⟩ :: (kindLexemes .space 0 t.kind ++ parentsAfterLexemes rest)

def declareLexemes (declare : Bool) : List Lexeme := if declare then [⟨.space, .word "declare"⟩] else []

/-- The lexemes of an interface or an alias that is exported. -/
def declarationLexemes (lead : Lead) : Statement → List Lexeme
  | .interface d =>
    ⟨lead.above 0 d.doc, .word "export"⟩ :: (declareLexemes d.declare ++
      ⟨.space, .word "interface"⟩ :: ⟨.space, .word d.name⟩ ::
        (heritageLexemes d.heritage ++ kindLexemes .space 0 (.object d.members)))
  | .typeAlias d =>
    ⟨lead.above 0 d.doc, .word "export"⟩ :: (declareLexemes d.declare ++
      ⟨.space, .word "type"⟩ :: ⟨.space, .word d.name⟩ :: ⟨.space, .mark .equals⟩ ::
        (kindLexemes .space 0 d.value.kind ++ [⟨{}, .mark .semicolon⟩]))
  | .namespaced _ _ _ _ => []

/-- What stands in front of the content of a namespace, and in front of its closing brace. -/
def innerLead (namespaces : List String) : Lead := if namespaces.isEmpty then .line 0 else .space

/-- A declaration inside namespaces. -/
def nestedLexemes (s : Statement) (lead : Lead) : List String → List Lexeme
  | [] => declarationLexemes lead s
  | name :: rest =>
    ⟨lead, .word "namespace"⟩ :: ⟨.space, .word name⟩ :: ⟨.space, .mark .openBrace⟩ ::
      (nestedLexemes s (innerLead rest) rest ++ [⟨innerLead rest, .mark .closeBrace⟩])

/-- Declarations with an empty line between two. -/
def fileLexemes (lead : Lead) : List Placed → List Lexeme
  | [] => []
  | p :: rest => nestedLexemes p.statement lead p.namespaces ++ fileLexemes { gap := ['\n', '\n'] } rest

theorem isPlainWord_of_isTypeName {name : String} (h : isTypeName name) : isPlainWord name := by
  simp only [isTypeName, Bool.and_eq_true] at h
  exact h.1

theorem Spells.wordBefore {lead : Lead} (hl : lead.Proper) (name : String) (hn : isPlainWord name) {ls : List Lexeme}
    {text : List Char} (h : Spells ls text) (hb : ∀ s, Breaks s → Breaks (text ++ s)) :
    Spells (⟨lead, .word name⟩ :: ls) (lead.chars ++ (name.toList ++ text)) := by
  have := (Spells.word hl hn).append h hb
  rwa [List.append_assoc] at this

theorem spells_parentsAfter (parents : List TypeExpr)
    (h : ∀ t ∈ parents, ∃ name, isTypeName name ∧ t = .reference name) :
    Spells (parentsAfterLexemes parents) (Printer.typesAfter 0 parents).toList ∧
      ∀ s, Breaks s → Breaks ((Printer.typesAfter 0 parents).toList ++ s) := by
  induction parents with
  | nil => exact ⟨Spells.nil, fun _ hs => hs⟩
  | cons t rest ih =>
    obtain ⟨name, hn, rfl⟩ := h t List.mem_cons_self
    obtain ⟨hrest, hbreaks⟩ := ih fun u hu => h u (List.mem_cons_of_mem _ hu)
    have hname := Spells.wordBefore Lead.proper_space _ (isPlainWord_of_isTypeName hn) hrest hbreaks
    have := Spells.mark Lead.proper_empty (m := .comma) (by simp [Mark.joins]) hname
    constructor
    · simpa [parentsAfterLexemes, Printer.typesAfter, Printer.type, Printer.typeKind, Printer.inlineDoc,
        TypeExpr.reference, TypeExpr.of, kindLexemes, Mark.text] using this
    · intro s _
      simp only [Printer.typesAfter, String.toList_append]
      exact breaks_cons (by decide) _

theorem spells_heritage (parents : List TypeExpr) (h : ∀ t ∈ parents, ∃ name, isTypeName name ∧ t = .reference name)
    {ls : List Lexeme} {text : List Char} (hl : Spells ls (' ' :: text)) :
    Spells (heritageLexemes parents ++ ls) ((Printer.heritage 0 parents).toList ++ ' ' :: text) := by
  cases parents with
  | nil => simpa [heritageLexemes, Printer.heritage] using hl
  | cons t rest =>
    obtain ⟨name, hn, rfl⟩ := h t List.mem_cons_self
    obtain ⟨hrest, hbreaks⟩ := spells_parentsAfter rest fun u hu => h u (List.mem_cons_of_mem _ hu)
    have htail := hrest.append hl fun s _ => breaks_cons (by decide) _
    have hname := Spells.wordBefore Lead.proper_space _ (isPlainWord_of_isTypeName hn) htail fun s hs => by
      rw [List.append_assoc]
      exact hbreaks _ (breaks_cons (by decide) _)
    have := Spells.wordBefore Lead.proper_space "extends" (by decide) hname fun s _ => breaks_cons (by decide) _
    simpa [heritageLexemes, Printer.heritage, Printer.type, Printer.typeKind, Printer.inlineDoc, TypeExpr.reference,
      TypeExpr.of, kindLexemes] using this

/-- The words in front of what a declaration declares. -/
theorem spells_export {lead : Lead} (hl : lead.Proper) {doc : Option String} (hd : ∀ d ∈ doc, IsDoc d) (declare : Bool)
    {ls : List Lexeme} {text : List Char} (h : Spells ls (' ' :: text)) :
    Spells (⟨lead.above 0 doc, .word "export"⟩ :: (declareLexemes declare ++ ls))
      (lead.chars ++ ((Printer.blockDoc 0 doc).toList ++ (Printer.modifiers true declare).toList ++ text)) := by
  have hdeclare : Spells (declareLexemes declare ++ ls) ((if declare then " declare" else "").toList ++ ' ' :: text) := by
    cases declare with
    | false => exact h
    | true =>
      exact Spells.wordBefore Lead.proper_space "declare" (by decide) h fun s _ => breaks_cons (by decide) _
  have := Spells.wordBefore (hl.above 0 hd) "export" (by decide) hdeclare fun s _ => by
    cases declare <;> exact breaks_cons (by decide) _
  have hchars := Lead.chars_above lead.chars (show lead.chars = lead.chars ++ indent 0 by simp [indent_eq]) hd
  rw [hchars] at this
  cases declare <;> simpa [Printer.modifiers, indent_eq] using this

theorem breaks_heritage (parents : List TypeExpr) (text : List Char) :
    Breaks ((Printer.heritage 0 parents).toList ++ ' ' :: text) := by
  cases parents with
  | nil => exact breaks_cons (by decide) _
  | cons t rest =>
    simp only [Printer.heritage, String.toList_append]
    exact breaks_cons (by decide) _

/-- An alias, if its value is spelled. -/
theorem spells_alias {lead : Lead} (hl : lead.Proper) {d : Alias} (hn : isTypeName d.name) (he : d.exported)
    (hp : d.typeParams = []) (hd : ∀ doc ∈ d.doc, IsDoc doc) (hdoc : d.value.doc = none)
    (hvalue : Spells (kindLexemes .space 0 d.value.kind) (Lead.space.chars ++ (Printer.typeKind 0 d.value.kind).toList)) :
    Spells (declarationLexemes lead (.typeAlias d)) (lead.chars ++ (Printer.statement (.typeAlias d)).toList) := by
  have hsemi := Spells.mark Lead.proper_empty (m := .semicolon) (by simp [Mark.joins]) Spells.nil
  have hequals := Spells.markBefore Lead.proper_space (m := .equals) (c := ' ') (by decide)
    (hvalue.append hsemi fun s _ => breaks_cons (by decide) _)
  have hname := Spells.wordBefore Lead.proper_space _ (isPlainWord_of_isTypeName hn) hequals fun s _ =>
    breaks_cons (by decide) _
  have hword := Spells.wordBefore Lead.proper_space "type" (by decide) hname fun s _ =>
    breaks_cons (by decide) _
  have := spells_export hl hd d.declare hword
  obtain ⟨name, exported, declare, params, ⟨kind, doc, span⟩, _, _⟩ := d
  obtain rfl : exported = true := he
  obtain rfl : params = [] := hp
  obtain rfl : doc = none := hdoc
  simpa [declarationLexemes, Printer.statement, Printer.statementAt, Printer.typeAlias, Printer.typeParams,
    Printer.type, Printer.inlineDoc, Mark.text, Printer.indentation] using this

theorem spells_declaration {lead : Lead} (hl : lead.Proper) {s : Statement} (h : s.Legible) :
    Spells (declarationLexemes lead s) (lead.chars ++ (Printer.statement s).toList) := by
  match s with
  | .interface d =>
    obtain ⟨hn, he, hp, hd, hh, hm⟩ := h
    have hbody := spells_kind Lead.proper_space 0 (.object d.members) hm
    have htail := spells_heritage d.heritage hh hbody
    have hname := Spells.wordBefore Lead.proper_space _ (isPlainWord_of_isTypeName hn) htail fun s _ => by
      rw [List.append_assoc]
      exact breaks_heritage d.heritage _
    have hword := Spells.wordBefore Lead.proper_space "interface" (by decide) hname fun s _ =>
      breaks_cons (by decide) _
    have hbrace : (Printer.interface 0 d).toList = (Printer.blockDoc 0 d.doc).toList ++
        ((Printer.modifiers true d.declare).toList ++ ("interface ".toList ++ (d.name.toList ++
          ((Printer.heritage 0 d.heritage).toList ++ ' ' :: (Printer.typeKind 0 (.object d.members)).toList)))) := by
      simp only [Printer.interface, Printer.typeKind, he, hp, Printer.typeParams, List.isEmpty_nil, if_true]
      split <;> simp [Printer.indentation]
    have := spells_export hl hd d.declare hword
    rw [Printer.statement, Printer.statementAt, hbrace]
    simpa [declarationLexemes] using this
  | .typeAlias d =>
    obtain ⟨hn, he, hp, hd, hdoc, hk⟩ := h
    exact spells_alias hl hn he hp hd hdoc (spells_kind Lead.proper_space 0 d.value.kind hk)
  | .namespaced _ _ _ _ => cases h

theorem proper_innerLead (namespaces : List String) : (innerLead namespaces).Proper := by
  rw [innerLead]
  split
  · exact Lead.proper_line 0
  · exact Lead.proper_space

theorem toList_intercalate (separator : String) (texts : List String) :
    (separator.intercalate texts).toList = joinWith separator.toList (texts.map String.toList) := by
  rw [String.toList_intercalate, intercalate_joinWith]

/-- A text after equal ones is a text before equal ones. -/
theorem joinWith_replicate (separator s : List Char) (n : Nat) :
    joinWith separator (List.replicate (n + 2) s) = joinWith separator (List.replicate (n + 1) s) ++ separator ++ s := by
  rw [List.replicate_succ', joinWith_append _ (by simp) (by simp), joinWith_singleton]

theorem inNamespaces_cons (name : String) (namespaces : List String) (code : String) :
    (inNamespaces (name :: namespaces) code).toList =
      "namespace ".toList ++ (name.toList ++ (" \x7b".toList ++ ((innerLead namespaces).chars ++
        ((inNamespaces namespaces code).toList ++ ((innerLead namespaces).chars ++ ['\x7d']))))) := by
  cases namespaces with
  | nil => simp [inNamespaces, innerLead, indent_eq]
  | cons inner rest =>
    have hclose := joinWith_replicate [' '] ['\x7d'] rest.length
    simp only [inNamespaces, innerLead, List.isEmpty_cons, Bool.false_eq_true, if_false, String.toList_append,
      toList_intercalate, List.map_map, List.map_const', List.map_cons, Lead.chars_space]
    simp only [Function.comp_def, String.toList_append, List.map_replicate]
    rw [joinWith_cons _ _ (List.cons_ne_nil _ _)]
    simpa [List.replicate_succ] using hclose

/-- Declarations in namespaces are printed as they are spelled. -/
theorem spells_nested {s : Statement} (hs : s.Legible) (namespaces : List String) (hn : ∀ n ∈ namespaces, isTypeName n)
    {lead : Lead} (hl : lead.Proper) :
    Spells (nestedLexemes s lead namespaces)
      (lead.chars ++ (inNamespaces namespaces (Printer.statement s)).toList) := by
  induction namespaces generalizing lead with
  | nil => exact spells_declaration hl hs
  | cons name rest ih =>
    have hin := proper_innerLead rest
    have hclose := Spells.mark hin (m := .closeBrace) (by simp [Mark.joins]) Spells.nil
    have hinside := (ih (fun n h => hn n (List.mem_cons_of_mem _ h)) hin).append hclose fun s _ => by
      rw [innerLead]
      split <;> exact breaks_cons (by decide) _
    obtain ⟨c, gap, hc, hjoins⟩ : ∃ c gap, (innerLead rest).chars = c :: gap ∧ Mark.openBrace.joins c = false := by
      rw [innerLead]
      split
      · exact ⟨_, _, rfl, by decide⟩
      · exact ⟨_, _, rfl, by decide⟩
    rw [hc] at hinside
    have hopen := Spells.markBefore Lead.proper_space (m := .openBrace) hjoins hinside
    have hname := Spells.wordBefore Lead.proper_space _ (isPlainWord_of_isTypeName (hn name List.mem_cons_self)) hopen
      fun s _ => breaks_cons (by decide) _
    have := Spells.wordBefore hl "namespace" (by decide) hname fun s _ => breaks_cons (by decide) _
    rw [inNamespaces_cons, hc]
    simpa [nestedLexemes, Mark.text] using this

theorem proper_blankLine : ({ gap := ['\n', '\n'] } : Lead).Proper :=
  ⟨Lead.isGap_cons (by decide) (Lead.isGap_cons (by decide) (by simp [IsGap])), by simp⟩

/-- The code of a declaration in its namespaces. -/
def Placed.code (p : Placed) : String := inNamespaces p.namespaces (Printer.statement p.statement)

theorem spells_file {placed : List Placed} (h : ∀ p ∈ placed, p.Legible) {lead : Lead} (hl : lead.Proper)
    (hne : placed ≠ []) :
    Spells (fileLexemes lead placed) (lead.chars ++ ("\n\n".intercalate (placed.map Placed.code)).toList) := by
  induction placed generalizing lead with
  | nil => exact absurd rfl hne
  | cons p rest ih =>
    have hp := h p List.mem_cons_self
    have hfirst := spells_nested hp.statement p.namespaces hp.namespaces hl
    by_cases hrest : rest = []
    · subst hrest
      simpa [fileLexemes, Placed.code] using hfirst
    · have hrest' := ih (fun q hq => h q (List.mem_cons_of_mem _ hq)) proper_blankLine hrest
      have := hfirst.append hrest' fun s _ => breaks_cons (by decide) _
      rw [toList_intercalate] at this ⊢
      rw [List.map_cons, List.map_cons, joinWith_cons _ _ (by simpa using hrest)]
      simpa [fileLexemes, Placed.code, Lead.chars] using this

/-- What a text ends with. -/
def EndsWith (s : String) (c : Char) : Prop := ∃ before, s.toList = before ++ [c]

theorem endsWith_append {s t : String} {c : Char} (h : EndsWith t c) : EndsWith (s ++ t) c := by
  obtain ⟨before, hb⟩ := h
  exact ⟨s.toList ++ before, by simp [hb]⟩

theorem endsWith_statement {s : Statement} (h : s.Legible) :
    EndsWith (Printer.statement s) ';' ∨ EndsWith (Printer.statement s) '\x7d' := by
  match s with
  | .interface d =>
    rw [Printer.statement, Printer.statementAt, Printer.interface]
    refine .inr (endsWith_append ?_)
    split
    · exact ⟨[' ', '\x7b'], rfl⟩
    · exact endsWith_append ⟨[], rfl⟩
  | .typeAlias d => exact .inl (endsWith_append ⟨[], rfl⟩)
  | .namespaced _ _ _ _ => cases h

theorem endsWith_code {p : Placed} (h : p.Legible) : EndsWith p.code ';' ∨ EndsWith p.code '\x7d' := by
  rw [Placed.code]
  cases p.namespaces with
  | nil => exact endsWith_statement h.statement
  | cons name rest =>
    refine .inr ?_
    rw [EndsWith, inNamespaces_cons]
    exact ⟨"namespace ".toList ++ (name.toList ++ (" \x7b".toList ++ ((innerLead rest).chars ++
      ((inNamespaces rest (Printer.statement p.statement)).toList ++ (innerLead rest).chars)))), by simp⟩

/-- A line feed is put behind the declarations of a file. -/
theorem endingLine_code {placed : List Placed} (h : ∀ p ∈ placed, p.Legible) :
    endingLine ("\n\n".intercalate (placed.map Placed.code)) =
      "\n\n".intercalate (placed.map Placed.code) ++ "\n" := by
  rw [endingLine, if_neg]
  rw [toList_intercalate, List.map_map]
  rcases List.eq_nil_or_concat placed with rfl | ⟨before, p, rfl⟩
  · simp
  · obtain ⟨c, hc, hne⟩ : ∃ c, EndsWith p.code c ∧ c ≠ '\n' := by
      rcases endsWith_code (h p (by simp)) with hp | hp
      · exact ⟨_, hp, by decide⟩
      · exact ⟨_, hp, by decide⟩
    obtain ⟨text, ht⟩ := hc
    rw [List.concat_eq_append, List.map_append, List.map_singleton, getLast?_joinWith (List.getLast?_concat ..)]
    · simp [ht, hne]
    · simp [ht]

/-- The texts of the options that stand in the header. -/
def WriteOptions.headerTexts (o : WriteOptions) : List String :=
  o.filename.toList ++ o.sourceFilename.toList ++ o.userPackage.toList ++ o.userPackageUrl.toList

/-- The comment that says where a file comes from, up to its end mark. -/
def WriteOptions.headerComment (o : WriteOptions) : String :=
  "/**\n * This file" ++ optionalText " (" o.filename ")" ++ " is auto-generated" ++
    optionalText " from " o.sourceFilename "" ++ " by " ++ generatorName ++
    optionalText " on behalf of " o.userPackage "" ++ ", DO NOT EDIT.\n *\n" ++
    " * For more information, see:\n" ++ linkLine generatorUrl ++
    (match o.userPackageUrl with
      | some url => linkLine url
      | none => "")

/-- A text that can stand behind anything inside a comment. -/
structure Inside (s : String) : Prop where
  isOpen : Open s.toList
  head : s.toList.head? ≠ some '/'

theorem inside_of_not_mem {s : String} (h : '/' ∉ s.toList) : Inside s :=
  ⟨open_of_not_mem (.inr h), fun hh => h (List.mem_of_head? hh)⟩

/-- A text of the options, between other texts. -/
theorem inside_between {before text after : String} (hb : '/' ∉ before.toList) (hne : before.toList ≠ [])
    (hlast : before.toList.getLast? ≠ some '*') (ht : Open text.toList) (ha : '/' ∉ after.toList) :
    Inside (before ++ text ++ after) := by
  refine ⟨?_, ?_⟩
  · rw [String.toList_append, String.toList_append]
    exact open_append (open_append (open_of_not_mem (.inr hb)) ht (.inl hlast)) (open_of_not_mem (.inr ha))
      (.inr fun hh => ha (List.mem_of_head? hh))
  · rw [String.toList_append, String.toList_append, List.append_assoc, List.head?_append_of_ne_nil _ hne]
    exact fun hh => hb (List.mem_of_head? hh)

theorem inside_optionalText (before after : String) {text : Option String} (hb : '/' ∉ before.toList)
    (hne : before.toList ≠ []) (hlast : before.toList.getLast? ≠ some '*') (ha : '/' ∉ after.toList)
    (h : ∀ s ∈ text, Open s.toList) : Inside (optionalText before text after) := by
  cases text with
  | none => exact inside_of_not_mem (by simp [optionalText])
  | some s => exact inside_between hb hne hlast (h s rfl) ha

theorem inside_linkLine {url : String} (h : Open url.toList) : Inside (WriteOptions.linkLine url) :=
  inside_between (by decide) (by decide) (by decide) h (by decide)

/-- A comment up to its end mark. -/
def Begun (s : String) : Prop := ∃ t, s.toList = '/' :: '*' :: t ∧ Open t

theorem Begun.append {s t : String} (hs : Begun s) (ht : Inside t) : Begun (s ++ t) := by
  obtain ⟨body, hb, hopen⟩ := hs
  exact ⟨body ++ t.toList, by simp [hb], open_append hopen ht.isOpen (.inr ht.head)⟩

theorem Begun.isComment {s : String} (h : Begun s) : IsComment (s.toList ++ " */".toList) := by
  obtain ⟨body, hb, hopen⟩ := h
  refine ⟨body ++ " */".toList, by rw [hb]; rfl, fun rest => ?_⟩
  rw [List.append_assoc, blockCommentLength_end hopen, List.length_append]
  rfl

theorem begun_headerComment {o : WriteOptions} (h : ∀ s ∈ o.headerTexts, Open s.toList) : Begun o.headerComment := by
  simp only [WriteOptions.headerTexts, List.mem_append, Option.mem_toList] at h
  have hfile := inside_optionalText " (" ")" (by decide) (by decide) (by decide) (by decide)
    fun s hs => h s (.inl (.inl (.inl hs)))
  have hsource := inside_optionalText " from " "" (by decide) (by decide) (by decide) (by decide)
    fun s hs => h s (.inl (.inl (.inr hs)))
  have hpackage := inside_optionalText " on behalf of " "" (by decide) (by decide) (by decide)
    (by decide) fun s hs => h s (.inl (.inr hs))
  have hgenerator : Inside (WriteOptions.linkLine generatorUrl) :=
    inside_linkLine (open_of_not_mem (.inl (by decide)))
  have hurl : Inside (match o.userPackageUrl with | some url => WriteOptions.linkLine url | none => "") := by
    cases hu : o.userPackageUrl with
    | none => exact inside_of_not_mem (by decide)
    | some url => exact inside_linkLine (h url (.inr hu))
  have hopens : Begun "/**\n * This file" := ⟨"*\n * This file".toList, by decide, open_of_not_mem (.inr (by decide))⟩
  refine ((((((((((hopens.append hfile).append ?_).append hsource).append ?_).append ?_).append hpackage).append
    ?_).append ?_).append hgenerator).append hurl)
  all_goals exact inside_of_not_mem (by decide)

def WriteOptions.lintLead (o : WriteOptions) : Lead :=
  if o.noDisableLintHeader then {}
  else ⟨[([], "/* tslint:disable */".toList), (['\n'], "/* eslint-disable */".toList)], ['\n']⟩

/-- The header as it stands in front of a file. -/
def WriteOptions.headerLead (o : WriteOptions) : Lead :=
  if o.noDescriptiveHeader then o.lintLead
  else o.lintLead.commented (o.headerComment.toList ++ " */".toList) ['\n', '\n']

theorem chars_lintLead (o : WriteOptions) : o.lintLead.chars = o.lintHeader.toList := by
  rw [WriteOptions.lintLead, WriteOptions.lintHeader]
  cases o.noDisableLintHeader <;> rfl

theorem chars_headerLead (o : WriteOptions) : o.headerLead.chars = o.header.toList := by
  rw [WriteOptions.headerLead, WriteOptions.header, String.toList_append, ← chars_lintLead]
  cases h : o.noDescriptiveHeader with
  | true => simp [WriteOptions.descriptiveHeader, h]
  | false =>
    have hdescriptive : o.descriptiveHeader = o.headerComment ++ " */\n\n" := if_neg (by simp [h])
    have hclose : " */\n\n".toList = " */".toList ++ ['\n', '\n'] := by decide
    have hcomment : o.descriptiveHeader.toList = o.headerComment.toList ++ (" */".toList ++ ['\n', '\n']) :=
      (congrArg String.toList hdescriptive).trans (by rw [String.toList_append]; exact congrArg _ hclose)
    rw [hcomment, if_neg (by simp), Lead.chars_commented, List.append_assoc]

theorem proper_lintLead (o : WriteOptions) : o.lintLead.Proper := by
  have htslint : Begun "/* tslint:disable" := ⟨" tslint:disable".toList, by decide, open_of_not_mem (.inr (by decide))⟩
  have heslint : Begun "/* eslint-disable" := ⟨" eslint-disable".toList, by decide, open_of_not_mem (.inr (by decide))⟩
  have hline : IsGap ['\n'] := Lead.isGap_cons (by decide) (by simp [IsGap])
  rw [WriteOptions.lintLead]
  split
  · exact Lead.proper_empty
  · refine ⟨hline, ?_⟩
    simp only [List.mem_cons, List.not_mem_nil, or_false]
    rintro c (rfl | rfl)
    · exact ⟨by simp [IsGap], htslint.isComment⟩
    · exact ⟨hline, heslint.isComment⟩

theorem proper_headerLead {o : WriteOptions} (h : ∀ s ∈ o.headerTexts, Open s.toList) : o.headerLead.Proper := by
  rw [WriteOptions.headerLead]
  split
  · exact proper_lintLead o
  · exact (proper_lintLead o).commented (begun_headerComment h).isComment
      (Lead.isGap_cons (by decide) (Lead.isGap_cons (by decide) (by simp [IsGap])))

/-- What stands in front of the end of a file. -/
def endLead (header : Lead) (placed : List Placed) : Lead :=
  if placed.isEmpty then { header with gap := header.gap ++ ['\n'] } else .line 0

/-- All lexemes of a document. -/
def documentLexemes (o : WriteOptions) (placed : List Placed) : List Lexeme :=
  fileLexemes o.headerLead placed ++ [⟨endLead o.headerLead placed, .finish⟩]

theorem proper_endLead {header : Lead} (h : header.Proper) (placed : List Placed) : (endLead header placed).Proper := by
  rw [endLead]
  split
  · refine ⟨fun c hc => ?_, h.comments⟩
    rcases List.mem_append.mp hc with hc | hc
    · exact h.gap c hc
    · rw [List.mem_singleton.mp hc]
      decide
  · exact Lead.proper_line 0

theorem Lead.Proper.head {lead : Lead} (h : lead.Proper) : ∀ c ∈ lead.chars.head?, Lexer.isGap c ∨ c = '/' := by
  obtain ⟨comments, gap⟩ := lead
  intro c hc
  cases comments with
  | nil =>
    rw [Lead.chars, List.flatMap_nil, List.nil_append] at hc
    exact .inl (h.gap c (List.mem_of_head? hc))
  | cons first rest =>
    obtain ⟨hgap, body, hbody, -⟩ := h.comments first List.mem_cons_self
    obtain ⟨before, comment⟩ := first
    obtain rfl : comment = _ := hbody
    cases before with
    | nil => exact .inr (by simpa [Lead.chars, eq_comm] using hc)
    | cons d before =>
      obtain rfl : d = c := by simpa [Lead.chars] using hc
      exact .inl (hgap d List.mem_cons_self)

theorem head?_spelled {l : Lexeme} (hl : l.lead.Proper) {ls : List Lexeme}
    (h : (l.atom.text.toList ++ spelled ls).head? ≠ some '#') : (spelled (l :: ls)).head? ≠ some '#' := by
  rw [spelled_cons, Lexeme.chars, List.append_assoc]
  cases hc : l.lead.chars with
  | nil => exact h
  | cons c rest =>
    rintro hh
    obtain rfl : c = '#' := by simpa using hh
    rcases hl.head '#' (by rw [hc]; rfl) with hgap | hslash
    · exact absurd hgap (by decide)
    · exact absurd hslash (by decide)

theorem head?_nestedLexemes {s : Statement} (hs : s.Legible) (lead : Lead) (namespaces : List String) :
    ∃ l rest, nestedLexemes s lead namespaces = l :: rest ∧
      (l.atom = .word "export" ∨ l.atom = .word "namespace") := by
  match namespaces, s with
  | [], .interface d => exact ⟨_, _, rfl, .inl rfl⟩
  | [], .typeAlias d => exact ⟨_, _, rfl, .inl rfl⟩
  | [], .namespaced _ _ _ _ => cases hs
  | _ :: _, _ => exact ⟨_, _, rfl, .inr rfl⟩

/-- The lexemes of a document come apart again. -/
theorem apart_document {o : WriteOptions} (ho : ∀ s ∈ o.headerTexts, Open s.toList) {placed : List Placed}
    (h : ∀ p ∈ placed, p.Legible) :
    Apart (fileLexemes o.headerLead placed) (endLead o.headerLead placed).chars := by
  by_cases hne : placed = []
  · subst hne
    exact trivial
  · refine (spells_file h (proper_headerLead ho) hne).apart _ ?_
    rw [endLead, if_neg (by simpa using hne)]
    exact breaks_cons (by decide) _

/-- A document starts with no line for an interpreter. -/
theorem head?_documentLexemes {o : WriteOptions} (ho : ∀ s ∈ o.headerTexts, Open s.toList) {placed : List Placed}
    (h : ∀ p ∈ placed, p.Legible) : (spelled (documentLexemes o placed)).head? ≠ some '#' := by
  have hapart := apart_document ho h
  cases placed with
  | nil => exact head?_spelled (proper_endLead (proper_headerLead ho) []) (by simp [Atom.text])
  | cons p rest =>
    obtain ⟨l, more, hl, hatom⟩ := head?_nestedLexemes (h p List.mem_cons_self).statement o.headerLead p.namespaces
    rw [fileLexemes, hl] at hapart
    rw [documentLexemes, fileLexemes, hl]
    refine head?_spelled hapart.1 ?_
    rcases hatom with hatom | hatom <;> rw [hatom] <;> simp [Atom.text]

theorem Document.emit_ok {d : Document} {o : WriteOptions} {c : Conversion String} (h : d.emit o = .ok c) :
    ∃ placed, d.declarations o = .ok placed ∧
      c.data = o.header ++ endingLine ("\n\n".intercalate (placed.map Placed.code)) := by
  rw [emit, emitWith] at h
  split at h
  · cases h
  · obtain ⟨placed, hp, hc⟩ := bind_ok.mp h
    cases hc
    exact ⟨placed, hp, rfl⟩

/-- The text of a document is what its lexemes spell. -/
theorem toList_file {o : WriteOptions} (ho : ∀ s ∈ o.headerTexts, Open s.toList) {placed : List Placed}
    (h : ∀ p ∈ placed, p.Legible) :
    (o.header ++ endingLine ("\n\n".intercalate (placed.map Placed.code))).toList =
      spelled (documentLexemes o placed) := by
  rw [endingLine_code h, documentLexemes, spelled_append]
  by_cases hne : placed = []
  · subst hne
    simp [fileLexemes, Lexeme.chars, endLead, Lead.chars, Atom.text, ← chars_headerLead]
  · rw [(spells_file h (proper_headerLead ho) hne).spelled, chars_headerLead, endLead, if_neg (by simpa using hne)]
    simp [Lexeme.chars, Atom.text, indent_eq]

/-- The tokens of a document show its lexemes. -/
theorem Document.tokens_emit {d : Document} {o : WriteOptions} {c : Conversion String} (h : d.emit o = .ok c)
    (ho : ∀ s ∈ o.headerTexts, Open s.toList)
    (hl : ∀ placed, d.declarations o = .ok placed → ∀ p ∈ placed, p.Legible) :
    ∃ placed, d.declarations o = .ok placed ∧
      List.Forall₂ Token.Shows (Lexer.tokens c.data) (documentLexemes o placed) := by
  obtain ⟨placed, hp, hc⟩ := emit_ok h
  have hlegible := hl placed hp
  have htext := toList_file ho hlegible
  rw [← hc] at htext
  refine ⟨placed, hp, Lexer.tokens_spelled (apart_document ho hlegible)
    (proper_endLead (proper_headerLead ho) placed) htext ?_⟩
  rw [htext]
  exact head?_documentLexemes ho hlegible

end TypeSchema
