import TypeSchema.Proofs.BracketReading
import TypeSchema.Proofs.FileSpelling

namespace TypeSchema

open Reader TypeReader FileReader

variable {source : List Char} {lead : Lead} {depth : Nat} {more : List Lexeme}

theorem reads_modifiers (declare : Bool) {word : String} (hw : word ∈ ["interface", "type"]) :
    Reads modifiers (⟨lead, .word "export"⟩ :: declareLexemes declare) (⟨.space, .word word⟩ :: more)
      (· = { exported := true, declare }) := by
  have hword : (Atom.word word).isWord "declare" = false ∧ (Atom.word word).isWord "default" = false := by
    revert hw word
    decide
  rw [modifiers]
  refine Reads.acceptWord rfl ?_
  cases declare with
  | false =>
    refine Reads.peek (l := ⟨.space, .word word⟩) rfl fun t ht => Reads.peekAfter_any fun _ => ?_
    rw [if_neg (by simp [ht.isWord, hword])]
    refine Reads.peekAfter_any fun _ => Reads.peek (l := ⟨.space, .word word⟩) rfl fun t ht => ?_
    rw [ht.isWord, hword.1]
    exact Reads.pure rfl
  | true =>
    refine Reads.peek rfl fun t ht => Reads.peekAfter_any fun _ => ?_
    rw [if_neg (by simp [ht.isWord, Atom.isWord, Atom.text])]
    refine Reads.peekAfter (l := ⟨.space, .word word⟩) rfl fun second hs => Reads.peek rfl fun t ht => ?_
    rw [ht.isWord, hs.kind, hs.startsLine]
    exact Reads.next fun _ _ => Reads.pure rfl

/-- A namespace is printed without words in front. -/
theorem reads_noModifiers {l : Lexeme} (hl : more.head? = some l) (hexport : l.atom.isWord "export" = false)
    (hdeclare : l.atom.isWord "declare" = false) : Reads modifiers [] more (· = {}) := by
  rw [modifiers]
  refine Reads.acceptWord_not (by exact hl) hexport ?_
  refine Reads.peekAfter_any (n := 0) fun _ => Reads.peekAfter_any fun _ => ?_
  rw [if_neg (by simp)]
  refine Reads.peekAfter_any fun _ => Reads.peek_more hl fun t ht => ?_
  rw [ht.isWord, hdeclare]
  exact Reads.pure rfl

/-- Nothing is printed that is read as a brace with a bar. -/
theorem isMark_braceBar (a : Atom) : a.isMark "\x7b|" = false := by
  cases a with
  | mark m => cases m <;> decide
  | _ => rfl

theorem reads_typeParams {nested : Nested} {l : Lexeme} (hl : more.head? = some l)
    (hangle : l.atom.isMark "<" = false) :
    Reads (typeParams nested) [] more (· = []) := by
  rw [typeParams]
  exact Reads.accept_not (by exact hl) hangle (Reads.pure rfl)

/-- A parent, before a comma or the members. -/
theorem reads_parent {nested : Nested} {name : String} {m : Mark} {lead : Lead} (hm : m ∈ [Mark.comma, .openBrace]) :
    Reads (documented do reference source nested (← peek)) [⟨.space, .word name⟩] (⟨lead, .mark m⟩ :: more)
      fun e => e.plain = (TypeExpr.reference name).plain := by
  rw [documented]
  refine Reads.peek rfl fun t ht => ?_
  rw [bind_assoc]
  refine Reads.peek rfl fun start hstart => ?_
  have hmark : ∀ m ∈ [Mark.comma, .openBrace], m ∈ Mark.openBrace :: primaryEnds := by decide
  refine Reads.bind_last (reference_name (t := start) hstart.text (hmark m hm)) fun e he => Reads.pure ?_
  rw [he.withDoc, ht.doc]
  rfl

/-- The parents of an interface. -/
def IsParent (t : TypeExpr) : Prop := ∃ name, isTypeName name ∧ t = .reference name

theorem reads_parent_before {nested : Nested} {name : String} (rest : List TypeExpr) :
    Reads (documented do reference source nested (← peek)) [⟨.space, .word name⟩]
      (parentsAfterLexemes rest ++ ⟨.space, .mark .openBrace⟩ :: more)
      fun e => e.plain = (TypeExpr.reference name).plain := by
  cases rest with
  | nil => exact reads_parent (by decide)
  | cons u rest => exact reads_parent (by decide)

theorem reads_parentsAfter {nested : Nested} (parents : List TypeExpr) (h : ∀ t ∈ parents, IsParent t) {n : Nat}
    (hn : parents.length ≤ n) :
    Reads (repeatUpTo n (accept ",") (documented do reference source nested (← peek))) (parentsAfterLexemes parents)
      (⟨.space, .mark .openBrace⟩ :: more) fun es => plainTypes es = plainTypes parents := by
  induction parents generalizing n with
  | nil => exact Reads.repeatUpTo_stop (Reads.not_accepted rfl rfl) rfl
  | cons t rest ih =>
    obtain ⟨name, -, rfl⟩ := h t List.mem_cons_self
    obtain ⟨n, rfl⟩ : ∃ k, n = k + 1 := ⟨n - 1, by simp at hn; omega⟩
    have hrest := ih (fun u hu => h u (List.mem_cons_of_mem _ hu)) (n := n) (by simpa using hn)
    exact Reads.repeatUpTo_step (Reads.accepted rfl) (reads_parent_before rest) hrest
      fun e es he hes => by rw [plainTypes, plainTypes, he, hes]

theorem length_parentsAfterLexemes (parents : List TypeExpr) :
    parents.length ≤ (parentsAfterLexemes parents).length := by
  induction parents with
  | nil => exact Nat.le_refl _
  | cons t rest ih =>
    simp only [parentsAfterLexemes, List.length_cons, List.length_append]
    omega

/-- Parents, before the members. -/
theorem reads_parents {nested : Nested} {name : String} {rest : List TypeExpr} (h : ∀ t ∈ rest, IsParent t) :
    Reads (separated "," (documented do reference source nested (← peek)))
      (⟨.space, .word name⟩ :: parentsAfterLexemes rest) (⟨.space, .mark .openBrace⟩ :: more)
      fun es => plainTypes es = plainTypes (.reference name :: rest) := by
  refine Reads.bind_one (reads_parent_before rest) fun e he => ?_
  refine Reads.bind_last (Reads.repeatWhile (reads_parentsAfter rest h ?_)) fun es hes => Reads.pure ?_
  · rw [List.length_append]
    exact Nat.le_add_right_of_le (length_parentsAfterLexemes rest)
  · rw [plainTypes, plainTypes, he, hes]

theorem reads_heritage {α : Type} {nested : Nested} {k : List TypeExpr → Reader α} {parents : List TypeExpr}
    {ls : List Lexeme} {Q : α → Prop} (h : ∀ t ∈ parents, IsParent t)
    (hk : ∀ es, plainTypes es = plainTypes parents → Reads (k es) (⟨.space, .mark .openBrace⟩ :: ls) more Q) :
    Reads (do
      if ← acceptWord "extends" then
        let es ← separated "," (documented do reference source nested (← peek))
        k es
      else
        let es ← pure []
        k es) (heritageLexemes parents ++ ⟨.space, .mark .openBrace⟩ :: ls) more Q := by
  cases parents with
  | nil =>
    refine Reads.acceptWord_not (l := ⟨.space, .mark .openBrace⟩) rfl rfl ?_
    rw [if_neg (by simp), pure_bind]
    exact hk [] rfl
  | cons t rest =>
    obtain ⟨name, -, rfl⟩ := h t List.mem_cons_self
    have hrest : ∀ u ∈ rest, IsParent u := fun u hu => h u (List.mem_cons_of_mem _ hu)
    refine Reads.acceptWord rfl ?_
    rw [if_pos rfl]
    exact Reads.bind (reads_parents hrest) hk

theorem reads_interface {start : Token} {d : Interface} (hstart : start.doc.map tidy = d.doc.map tidy)
    (h : (Statement.interface d).Legible) (hdepth : (memberLexemes 1 d.members).length ≤ depth) :
    Reads (interface source (within source (depth + 1)) start { exported := true, declare := d.declare })
      (⟨.space, .word d.name⟩ :: (heritageLexemes d.heritage ++ kindLexemes .space 0 (.object d.members))) more
      fun r => r.plain = (Statement.interface d).plain := by
  obtain ⟨-, hexported, hparams, -, hparents, hmembers⟩ := h
  rw [interface, kindLexemes_object]
  refine Reads.word fun name hname => ?_
  obtain ⟨l, hl, hangle⟩ : ∃ l, (heritageLexemes d.heritage ++ (⟨.space, .mark .openBrace⟩ : Lexeme) ::
      (memberLexemes 1 d.members ++ [⟨closingLead 0 d.members, .mark .closeBrace⟩]) ++ more).head? = some l ∧
      l.atom.isMark "<" = false := by
    cases d.heritage <;> exact ⟨_, rfl, rfl⟩
  refine Reads.bind_none (reads_typeParams hl hangle) fun params hp => ?_
  dsimp only
  refine reads_heritage hparents fun es hes => ?_
  refine Reads.peek rfl fun t ht => Reads.accept rfl ?_
  have hm := readable_members source d.members hmembers
  obtain ⟨first, hfirst, -⟩ := head?_memberLexemes hm 1 (closingLead 0 d.members) more
  refine Reads.accept_not (l := first) (by rw [List.append_assoc]; exact hfirst) (isMark_braceBar first.atom) ?_
  rw [if_neg (by simp), if_neg (by rw [ht.isMark, isMark_braceBar]; simp)]
  refine Reads.bind_last (reads_membersClosed hm hdepth) fun ms hms => Reads.spanFrom fun span => Reads.pure ?_
  have hexported' : d.exported = true := hexported
  simp only [Statement.plain, Interface.plain, hes, hms, hstart, hp, hparams, hexported', hname.text, Atom.text]

theorem reads_endStatement : Reads endStatement [⟨{}, .mark .semicolon⟩] more fun _ => True :=
  Reads.accept rfl (Reads.pure trivial)

/-- An alias has the value that is read behind its name. -/
theorem reads_aliasOf {nested : Nested} {start : Token} {declare : Bool} {name : String} {ls : List Lexeme}
    {P : TypeExpr → Prop} (h : Reads (documented (nested.type true)) ls (⟨{}, .mark .semicolon⟩ :: more) P) :
    Reads (typeAlias nested start { exported := true, declare })
      (⟨.space, .word name⟩ :: ⟨.space, .mark .equals⟩ :: (ls ++ [⟨{}, .mark .semicolon⟩])) more
      fun r => ∃ value span, P value ∧
        r = .typeAlias { name, exported := true, declare, value, doc := start.doc, span } := by
  rw [typeAlias]
  refine Reads.word fun word hname => Reads.bind_none (reads_typeParams rfl rfl) fun params hp =>
    Reads.expect rfl ?_
  refine Reads.bind h fun value hvalue => Reads.bind_last reads_endStatement fun _ _ =>
    Reads.spanFrom fun span => Reads.pure ⟨value, some span, hvalue, ?_⟩
  rw [hp, hname.text]
  rfl

theorem reads_alias {start : Token} {d : Alias} (hstart : start.doc.map tidy = d.doc.map tidy)
    (h : (Statement.typeAlias d).Legible) (hdepth : (kindLexemes .space 0 d.value.kind).length ≤ depth) :
    Reads (typeAlias (within source (depth + 1)) start { exported := true, declare := d.declare })
      (⟨.space, .word d.name⟩ :: ⟨.space, .mark .equals⟩ ::
        (kindLexemes .space 0 d.value.kind ++ [⟨{}, .mark .semicolon⟩])) more
      fun r => r.plain = (Statement.typeAlias d).plain := by
  obtain ⟨-, hexported, hparams, -, hdoc, hvalue⟩ := h
  have hread := (readable source d.value.kind hvalue).documented true Lead.clear_space hdepth
    ⟨{}, .semicolon, more, by decide, rfl⟩
  refine (reads_aliasOf hread).mono ?_
  rintro _ ⟨value, span, hplain, rfl⟩
  have hexported' : d.exported = true := hexported
  have hplain' : value.plain = d.value.plain := by rw [hplain, d.value.plain_eq, hdoc, Option.map_none]
  simp only [Statement.plain, Alias.plain, hplain', hstart, hparams, hexported']

theorem reads_declaration_of_word {word : String} (hw : word ∈ ["interface", "type"]) {nested : Nested}
    {body : Reader (List Statement)} {declare : Bool} {name : String} {ls : List Lexeme} {Q : Statement → Prop}
    (h : ∀ start : Token, start.doc = lead.doc →
      Reads (if word = "interface" then interface source nested start { exported := true, declare }
        else typeAlias nested start { exported := true, declare }) (⟨.space, .word name⟩ :: ls) more Q) :
    Reads (declaration source nested body)
      (⟨lead, .word "export"⟩ :: (declareLexemes declare ++ ⟨.space, .word word⟩ :: ⟨.space, .word name⟩ :: ls))
      more Q := by
  rw [declaration]
  refine Reads.peek rfl fun start hstart => ?_
  rw [← List.cons_append]
  refine Reads.bind (reads_modifiers declare hw) ?_
  rintro _ rfl
  refine Reads.next fun t ht => Reads.peek rfl fun second hs => ?_
  have hstart := h start hstart.doc
  rw [if_neg (by simp [hs.kind, Atom.kind]), ht.isWord, ht.isWord, hs.startsLine]
  obtain rfl | rfl : word = "interface" ∨ word = "type" := by simpa using hw
  · exact hstart
  · exact hstart

/-- The comment in front of a declaration is read as its comment. -/
theorem reads_declaration {s : Statement} (h : s.Legible) (hl : lead.Clear) {body : Reader (List Statement)}
    (hdepth : (declarationLexemes lead s).length ≤ depth) :
    Reads (declaration source (within source (depth + 1)) body) (declarationLexemes lead s) more
      fun r => r.plain = s.plain := by
  cases s with
  | interface d =>
    have hdoc := hl.above 0 h.2.2.2.1
    rw [declarationLexemes, kindLexemes_object] at hdepth
    simp only [List.length_cons, List.length_append, Nat.zero_add] at hdepth
    refine reads_declaration_of_word (by decide) fun start hstart => ?_
    exact reads_interface (hstart ▸ hdoc) h (by omega)
  | typeAlias d =>
    have hdoc := hl.above 0 h.2.2.2.1
    rw [declarationLexemes] at hdepth
    simp only [List.length_cons, List.length_append] at hdepth
    refine reads_declaration_of_word (by decide) fun start hstart => ?_
    exact reads_alias (hstart ▸ hdoc) h (by omega)
  | namespaced path exported body span => cases h

/-- No comment stands on the line of a closing brace. -/
theorem reads_takeLineComments {l : Lexeme} (hl : more.head? = some l) (hflush : l.lead.isFlush) :
    Reads takeLineComments [] more fun _ => True := by
  rw [takeLineComments]
  refine Reads.get fun c hc => ?_
  obtain ⟨tokens, stop⟩ := c
  obtain _ | ⟨ht, -⟩ := hc
  · cases hl
  · obtain rfl := Option.some.inj hl
    simp only [ht.flush hflush, List.getLast?_nil]
    exact Reads.pure trivial

theorem reads_endBlock {l : Lexeme} (hl : more.head? = some l) (hflush : l.lead.isFlush) :
    Reads endBlock [] more fun _ => True := by
  rw [endBlock]
  refine Reads.peekAfter_any (n := 0) fun t => ?_
  split
  · exact reads_takeLineComments hl hflush
  · exact Reads.pure trivial

theorem Reads.orElse {α : Type} {read other : Reader α} {ls : List Lexeme} {P : α → Prop} (h : Reads read ls more P) :
    Reads (read <|> other) ls more P := by
  intro ts rest stop hts hrest
  obtain ⟨a, stop', ha, hp⟩ := h ts rest stop hts hrest
  refine ⟨a, stop', ?_, hp⟩
  change (read ⟨ts ++ rest, stop⟩ <|> other ⟨ts ++ rest, stop⟩) = _
  rw [ha]
  rfl

variable {nested : Nested} {body : Reader (List Statement)} {atEnd : Token → Bool} {n : Nat}

theorem reads_statement {ls : List Lexeme} {P : Statement → Prop}
    (h : Reads (declaration source nested body) ls more P) :
    Reads (statement? source nested body) ls more fun r => ∃ s, r = some s ∧ P s :=
  Reads.orElse (Reads.map (h.mono fun s hs => ⟨s, rfl, hs⟩))

theorem reads_statements_stop {l : Lexeme} (hl : more.head? = some l) (hend : ∀ t : Token, t.Shows l → atEnd t = true)
    {R : List (Option Statement) → Prop} (hr : R []) :
    Reads (repeatUpTo n (do return !atEnd (← peek)) (statement? source nested body)) [] more R := by
  refine Reads.repeatUpTo_stop (Reads.peek_more hl fun t ht => Reads.pure ?_) hr
  rw [hend t ht]
  rfl

/-- One declaration more. -/
theorem reads_statements_step {ls ms : List Lexeme} {l : Lexeme} (hl : (ls ++ ms ++ more).head? = some l)
    (hopen : ∀ t : Token, t.Shows l → atEnd t = false) {P : Statement → Prop}
    (h : Reads (declaration source nested body) ls (ms ++ more) P) {R R' : List (Option Statement) → Prop}
    (hr : Reads (repeatUpTo n (do return !atEnd (← peek)) (statement? source nested body)) ms more R)
    (hcons : ∀ s rs, P s → R rs → R' (some s :: rs)) :
    Reads (repeatUpTo (n + 1) (do return !atEnd (← peek)) (statement? source nested body)) (ls ++ ms) more R' := by
  refine Reads.repeatUpTo_next (Reads.peek_more hl fun t ht => Reads.pure ?_)
    (reads_statement h) hr ?_
  · rw [hopen t ht]
    rfl
  · rintro _ rs ⟨s, rfl, hs⟩ hrs
    exact hcons s rs hs hrs

theorem isFlush_innerLead (namespaces : List String) : (innerLead namespaces).isFlush := by
  rw [innerLead]
  split <;> rfl

theorem clear_innerLead (namespaces : List String) : (innerLead namespaces).Clear := by
  rw [innerLead]
  split
  · exact Lead.clear_line 0
  · exact Lead.clear_space

/-- What a declaration starts with ends no block and no file. -/
theorem not_atEnd {t : Token} {l : Lexeme} (ht : t.Shows l)
    (hl : l.atom = .word "export" ∨ l.atom = .word "namespace") :
    (t.kind == .finish) = false ∧ (t.kind == .finish || t.isMark "\x7d") = false := by
  rw [ht.kind, ht.isMark]
  rcases hl with hl | hl
  · rw [hl]
    exact ⟨rfl, rfl⟩
  · rw [hl]
    exact ⟨rfl, rfl⟩

/-- The block of a namespace holds one statement. -/
theorem reads_block {s : Statement} {ls : List Lexeme} {first : Lexeme}
    (hhead : ∀ more, (ls ++ more).head? = some first)
    (hfirst : first.atom = .word "export" ∨ first.atom = .word "namespace") {lead : Lead}
    (h : Reads (declaration source nested (block source nested n)) ls (⟨lead, .mark .closeBrace⟩ :: more)
      fun r => r.plain = s.plain) :
    Reads (block source nested (n + 1)) ls (⟨lead, .mark .closeBrace⟩ :: more)
      fun rs => plainStatements rs = [s.plain] := by
  rw [block, statements]
  refine Reads.bind_last (P := fun rs => plainStatements (rs.filterMap id) = [s.plain]) (Reads.repeatWhile ?_)
    fun rs hrs => Reads.pure hrs
  rw [List.length_append, List.length_cons, ← Nat.add_assoc, ← List.append_nil ls]
  refine reads_statements_step (by rw [List.append_assoc, hhead]) (fun t ht => (not_atEnd ht hfirst).2) h
    (R := (· = [])) (reads_statements_stop (l := ⟨lead, .mark .closeBrace⟩) rfl (fun t ht => ?_) rfl) ?_
  · rw [ht.isMark]
    exact Bool.or_true _
  · rintro r _ hr rfl
    exact congrArg (· :: []) hr

theorem reads_path {name : String} {lead : Lead} :
    Reads (separated "." word) [⟨.space, .word name⟩] (⟨lead, .mark .openBrace⟩ :: more)
      fun path => path.map Token.text = [name] := by
  rw [separated]
  have hstop : Reads (repeatWhile (accept ".") word) [] (⟨lead, .mark .openBrace⟩ :: more) (· = []) :=
    Reads.repeatWhile (Reads.repeatUpTo_stop (Reads.not_accepted rfl rfl) rfl)
  refine Reads.word fun t ht => Reads.bind_last hstop fun _ hnil => Reads.pure ?_
  rw [hnil]
  exact congrArg (· :: []) ht.text

/-- A namespace around what its block holds. -/
theorem reads_namespaced {name : String} {s : Statement} {ls : List Lexeme} {inner : Lead} {l : Lexeme}
    (hmore : more.head? = some l) (hflush : l.lead.isFlush)
    (h : Reads body ls (⟨inner, .mark .closeBrace⟩ :: more) fun rs => plainStatements rs = [s.plain]) :
    Reads (declaration source nested body)
      (⟨lead, .word "namespace"⟩ :: ⟨.space, .word name⟩ :: ⟨.space, .mark .openBrace⟩ ::
        (ls ++ [⟨inner, .mark .closeBrace⟩])) more
      fun r => r.plain = (Statement.namespaced [name] false [s] none).plain := by
  rw [declaration]
  refine Reads.peek rfl fun start hstart => ?_
  refine Reads.bind_none (reads_noModifiers rfl rfl rfl) ?_
  rintro _ rfl
  refine Reads.next fun t ht => Reads.peek rfl fun second hsecond => ?_
  rw [if_neg (by simp [hsecond.kind, Atom.kind]), ht.isWord, ht.isWord, ht.isWord, hsecond.startsLine]
  change Reads (namespaced body start {}) _ _ _
  rw [namespaced]
  refine Reads.bind_one reads_path fun path hp => Reads.accept rfl ?_
  rw [if_pos rfl]
  refine Reads.bind h fun rs hrs => Reads.expect rfl ?_
  rw [pure_bind]
  refine Reads.bind_last (reads_endBlock hmore hflush) fun _ _ => Reads.spanFrom fun span => Reads.pure ?_
  rw [Statement.plain, Statement.plain, hp, hrs]
  rfl

theorem reads_nested {s : Statement} (hs : s.Legible) (namespaces : List String) {lead : Lead} (hl : lead.Clear)
    {depth n : Nat} (hdepth : (nestedLexemes s lead namespaces).length ≤ depth) (hn : namespaces.length ≤ n)
    {more : List Lexeme} {l : Lexeme} (hmore : more.head? = some l) (hflush : l.lead.isFlush) :
    Reads (declaration source (within source (depth + 1)) (block source (within source (depth + 1)) n))
      (nestedLexemes s lead namespaces) more fun r => r.plain = (Placed.nested ⟨namespaces, s⟩).plain := by
  induction namespaces generalizing lead n more l with
  | nil => exact reads_declaration hs hl hdepth
  | cons name rest ih =>
    obtain ⟨n, rfl⟩ : ∃ k, n = k + 1 := ⟨n - 1, by simp at hn; omega⟩
    rw [nestedLexemes, List.length_cons, List.length_cons, List.length_cons, List.length_append] at hdepth
    have hinner (more : List Lexeme) := ih (clear_innerLead rest) (by omega) (by simpa using hn)
      (show (⟨innerLead rest, .mark .closeBrace⟩ :: more).head? = some _ from rfl) (isFlush_innerLead rest)
    obtain ⟨first, ls, hls, hfirst⟩ := head?_nestedLexemes hs (innerLead rest) rest
    exact reads_namespaced hmore hflush (reads_block (fun more => by rw [hls]; rfl) hfirst (hinner more))

theorem length_nestedLexemes (s : Statement) (lead : Lead) (namespaces : List String) :
    namespaces.length ≤ (nestedLexemes s lead namespaces).length := by
  induction namespaces generalizing lead with
  | nil => exact Nat.zero_le _
  | cons name rest ih =>
    have := ih (innerLead rest)
    simp only [nestedLexemes, List.length_cons, List.length_append]
    omega

/-- What stands between two declarations. -/
def blankLine : Lead := { gap := ['\n', '\n'] }

theorem fileLexemes_cons (lead : Lead) (p : Placed) (rest : List Placed) :
    fileLexemes lead (p :: rest) = nestedLexemes p.statement lead p.namespaces ++ fileLexemes blankLine rest := rfl

theorem isFlush_head_nestedLexemes {s : Statement} (hs : s.Legible) (namespaces : List String) :
    ∃ l rest, nestedLexemes s blankLine namespaces = l :: rest ∧ l.lead.isFlush := by
  have habove (doc : Option String) : (blankLine.above 0 doc).isFlush := by cases doc <;> rfl
  cases namespaces with
  | cons name rest => exact ⟨_, _, rfl, rfl⟩
  | nil =>
    cases s with
    | interface d => exact ⟨_, _, rfl, habove d.doc⟩
    | typeAlias d => exact ⟨_, _, rfl, habove d.doc⟩
    | namespaced => cases hs

theorem plainStatements_cons (s : Statement) (rest : List Statement) :
    plainStatements (s :: rest) = s.plain :: plainStatements rest := by
  rw [plainStatements]

/-- The statements of a file, up to its end. -/
theorem reads_placed (placed : List Placed) (h : ∀ p ∈ placed, p.Legible) {lead last : Lead} (hl : lead.Clear)
    (hlast : placed ≠ [] → last.isFlush) {depth : Nat} (hdepth : (fileLexemes lead placed).length ≤ depth) {n : Nat}
    (hn : (fileLexemes lead placed).length ≤ n) :
    Reads (repeatUpTo n (do return !(fun t : Token => t.kind == .finish) (← peek))
        (statement? source (within source (depth + 1)) (block source (within source (depth + 1)) (depth + 1))))
      (fileLexemes lead placed) [⟨last, .finish⟩]
      fun rs => plainStatements (rs.filterMap id) = plainStatements (placed.map Placed.nested) := by
  induction placed generalizing lead n with
  | nil =>
    refine reads_statements_stop (l := ⟨last, .finish⟩) rfl (fun t ht => ?_) rfl
    rw [ht.kind]
    rfl
  | cons p rest ih =>
    have hp := (h p List.mem_cons_self).statement
    have hrest : ∀ q ∈ rest, q.Legible := fun q hq => h q (List.mem_cons_of_mem _ hq)
    rw [fileLexemes_cons] at hdepth hn ⊢
    rw [List.length_append] at hdepth hn
    have hlength := length_nestedLexemes p.statement lead p.namespaces
    obtain ⟨first, ls, hls, hfirst⟩ := head?_nestedLexemes hp lead p.namespaces
    have hpos : 0 < (nestedLexemes p.statement lead p.namespaces).length := by simp [hls]
    obtain ⟨n, rfl⟩ : ∃ k, n = k + 1 := ⟨n - 1, by omega⟩
    have hafter := ih hrest (show blankLine.Clear from Lead.clear_of_no_comments rfl)
      (fun _ => hlast (List.cons_ne_nil _ _)) (by omega) (n := n) (by omega)
    obtain ⟨l, hmore, hflush⟩ : ∃ l, (fileLexemes blankLine rest ++ [(⟨last, .finish⟩ : Lexeme)]).head? = some l ∧
        l.lead.isFlush := by
      cases rest with
      | nil => exact ⟨_, rfl, hlast (List.cons_ne_nil _ _)⟩
      | cons q rest =>
        obtain ⟨l, ls, hls, hflush⟩ := isFlush_head_nestedLexemes (hrest q List.mem_cons_self).statement q.namespaces
        exact ⟨l, by rw [fileLexemes, hls]; rfl, hflush⟩
    have hnested : Reads (declaration source (within source (depth + 1))
        (block source (within source (depth + 1)) (depth + 1))) (nestedLexemes p.statement lead p.namespaces)
        (fileLexemes blankLine rest ++ [⟨last, .finish⟩]) fun r => r.plain = (Placed.nested p).plain :=
      reads_nested hp p.namespaces hl (by omega) (by omega) hmore hflush
    refine reads_statements_step (l := first) (by rw [hls]; rfl) (fun t ht => (not_atEnd ht hfirst).1) hnested hafter ?_
    intro s rs hs hrs
    rw [List.filterMap_cons, List.map_cons, plainStatements_cons, ← hs, ← hrs, ← plainStatements_cons]
    rfl

/-- A text whose tokens show declarations is read as these. -/
theorem SourceFile.ofText_shows {text : String} {placed : List Placed} (h : ∀ p ∈ placed, p.Legible) {lead last : Lead}
    (hl : lead.Clear) (hlast : placed ≠ [] → last.isFlush)
    (ht : List.Forall₂ Token.Shows (Lexer.tokens text) (fileLexemes lead placed ++ [⟨last, .finish⟩])) :
    plainStatements (SourceFile.ofText text).statements = plainStatements (placed.map Placed.nested) := by
  have hlength : (Lexer.tokens text).length = (fileLexemes lead placed).length + 1 := by
    rw [ht.length_eq, List.length_append, List.length_singleton]
  have hfile : Reads (FileReader.statements text.toList (within text.toList (Lexer.tokens text).length)
      (block text.toList (within text.toList (Lexer.tokens text).length) (Lexer.tokens text).length)
      fun t => t.kind == .finish) (fileLexemes lead placed) [⟨last, .finish⟩]
      fun ss => plainStatements ss = plainStatements (placed.map Placed.nested) := by
    rw [hlength, FileReader.statements]
    exact Reads.bind_last (Reads.repeatWhile (reads_placed placed h hl hlast (Nat.le_refl _) (by simp))) fun rs hrs =>
      Reads.pure hrs
  obtain ⟨ss, stop, hss, hplain⟩ := hfile _ _ 0 (List.forall₂_take_append _ _ _ ht) (List.forall₂_drop_append _ _ _ ht)
  rw [List.take_append_drop] at hss
  rw [ofText, hss]
  exact hplain

end TypeSchema
