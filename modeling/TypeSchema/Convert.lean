import TypeSchema.Decode
import TypeSchema.Emit
import TypeSchema.Syntax.FileReader

namespace TypeSchema

/-- How far a conversion has come. -/
structure Progress where
  types : List NamedType := []
  notConverted : List String := []
  /-- The names that need no further look. -/
  done : List String := []

/-- A declaration as a type of the document. -/
def Context.decodeTop (cx : Context) (d : Declaration) : Decode (Option Node) :=
  Decode.declaration (.within cx.table.declarations.length)
    { cx with path := [d.name], scope := d.scope, entered := [] } d

/-- The types with one more, or with one that could not be converted. -/
def Progress.add (p : Progress) (name : String) (node : Option Node) : Progress :=
  match node with
  | some node => { p with types := p.types ++ [⟨name, node⟩] }
  | none => { p with notConverted := p.notConverted ++ [name] }

namespace Convert

/-- Are declarations of this kind types of the document from the start? -/
def isSelected (options : ReadOptions) (d : Declaration) : Bool :=
  d.exported || options.nonExported == .included

/-- Convert declarations in turn. -/
def all (cx : Context) (p : Progress) : List Declaration → Decode Progress
  | [] => return p
  | d :: rest => do
    let node ← cx.decodeTop d
    all cx (p.add d.name node) rest

/-- The names that were noted and that a type refers to, without those that are done. -/
def pending (p : Progress) (referenced : List String) : List String :=
  referenced.filter fun name => !p.done.contains name && p.types.any fun t => t.node.references name

/-- Convert what the types refer to until nothing new is referred to. Each round settles a name at least, so there
are no more rounds than names. -/
def rounds (cx : Context) : Nat → Progress → Decode Progress
  | 0, p => return p
  | n + 1, p => do
    let names := pending p (← get).referenced
    if names.isEmpty then return p
    else
      let p ← all cx { p with done := p.done ++ names } (names.filterMap cx.table.get?)
      rounds cx n p

/-- Where nothing was noted, no round is needed. -/
theorem rounds_of_none (cx : Context) (n : Nat) (p : Progress) {log : Log} (h : log.referenced = []) :
    (rounds cx n p).run.run log = (.ok p, log) := by
  obtain ⟨warnings, referenced⟩ := log
  subst h
  cases n <;> rfl

/-- The types of the document, and the names of the declarations that are none. -/
def progress (cx : Context) (hoistedAway : List String) : Decode Progress := do
  let p ← all cx { notConverted := hoistedAway } (cx.table.declarations.filter (isSelected cx.options))
  rounds cx (cx.table.declarations.length + 1) { p with done := p.types.map NamedType.name }

end Convert

/-- A conversion that keeps what was warned of, however it ends. -/
structure Outcome where
  result : Except Error (Conversion Document)
  warnings : List Warning := []

/-- The document of a file. The source serves to place what is reported. -/
def SourceFile.convert (file : SourceFile) (source : String) (options : ReadOptions) : Outcome :=
  let (table, hoistedAway) := Table.collect options.namespaces file
  let cx : Context := { source := source.toList, options, table }
  let hidden := if options.nonExported = .fail then table.declarations.find? (!·.exported) else none
  match hidden with
  | some d => { result := .error (.malformed .nonExported ({ cx with path := [d.name] }.place d.span)) }
  | none =>
    let (result, log) := (Convert.progress cx hoistedAway).run.run {}
    { warnings := log.warnings
      result := result.map fun p => {
        data := ⟨Document.currentVersion, p.types⟩
        converted := p.types.map NamedType.name
        notConverted := p.notConverted } }

/-- The document of a text that `read` finds declarations in. -/
def convertWith (read : String → Except String SourceFile) (source : String) (options : ReadOptions) :
    Outcome :=
  match read source with
  | .ok file => file.convert source options
  | .error reason => { result := .error (.unreadable reason) }

/-- The document of a text. -/
def convert (source : String) (options : ReadOptions) : Outcome :=
  convertWith (fun text => .ok (SourceFile.ofText text)) source options

end TypeSchema
