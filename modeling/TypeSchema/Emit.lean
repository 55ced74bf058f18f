import TypeSchema.Encode
import TypeSchema.Syntax.Printer

namespace TypeSchema

/-- What a conversion yields, with the names of the types that went over and of those that did not. -/
structure Conversion (α : Type) where
  data : α
  converted : List String
  notConverted : List String

/-- The name under which files are announced. -/
def generatorName : String := "normalize-core-types"

def generatorUrl : String := "https://github.com/rhi-zone/normalize"

/-- Code inside namespaces that are opened on one line and closed on one line. -/
def inNamespaces (namespaces : List String) (code : String) : String :=
  if namespaces.isEmpty then code
  else
    " ".intercalate (namespaces.map fun n => "namespace " ++ n ++ " \x7b") ++ "\n" ++ code ++ "\n" ++
      " ".intercalate (namespaces.map fun _ => "\x7d")

/-- A text with words around it, if it is there. -/
def optionalText (before : String) (text : Option String) (after : String) : String :=
  match text with
  | some text => before ++ text ++ after
  | none => ""

namespace WriteOptions

def lintHeader (o : WriteOptions) : String :=
  if o.noDisableLintHeader then "" else "/* tslint:disable */\n/* eslint-disable */\n"

def linkLine (url : String) : String := " *  - \x7b@link " ++ url ++ "\x7d\n"

/-- The comment that says where a file comes from. The empty line after it keeps it from being taken for the
comment of the first declaration. -/
def descriptiveHeader (o : WriteOptions) : String :=
  if o.noDescriptiveHeader then ""
  else
    "/**\n * This file" ++ optionalText " (" o.filename ")" ++ " is auto-generated" ++
      optionalText " from " o.sourceFilename "" ++ " by " ++ generatorName ++
      optionalText " on behalf of " o.userPackage "" ++ ", DO NOT EDIT.\n *\n" ++
      " * For more information, see:\n" ++ linkLine generatorUrl ++
      (match o.userPackageUrl with
        | some url => linkLine url
        | none => "") ++ " */\n\n"

def header (o : WriteOptions) : String := o.lintHeader ++ o.descriptiveHeader

end WriteOptions

/-- The failure of a type, with the name of the type in front of its path. -/
def Error.inType (name : String) : Error → Error
  | .unsupported cause place => .unsupported cause { place with path := name :: place.path }
  | e => e

/-- The text, with a line feed at its end. -/
def endingLine (text : String) : String :=
  if text.toList.getLast? = some '\n' then text else text ++ "\n"

namespace Document

/-- The declarations of a document, in order. -/
def declarations (document : Document) (options : WriteOptions) : Except Error (List Placed) :=
  document.types.mapM fun named =>
    (named.declaration options document.types).mapError (Error.inType named.name)

/-- The text of a document, each statement printed by `print`. -/
def emitWith (print : Statement → String) (document : Document) (options : WriteOptions) :
    Except Error (Conversion String) := do
  if document.version ≠ currentVersion then
    throw (.malformed (.version document.version) {})
  let placed ← document.declarations options
  let blocks := placed.map fun p => inNamespaces p.namespaces (print p.statement)
  return {
    data := options.header ++ endingLine ("\n\n".intercalate blocks)
    converted := document.types.map NamedType.name
    notConverted := [] }

def emit (document : Document) (options : WriteOptions) : Except Error (Conversion String) :=
  document.emitWith Printer.statement options

end Document

end TypeSchema
