import TypeSchema.Json.Fields

namespace TypeSchema

/-- What becomes of a construct that cannot be converted. -/
inductive UnsupportedPolicy
  | ignore
  | warn
  | error
deriving DecidableEq, Repr

/-- How type names are split into namespaces. -/
inductive NamespaceSplit
  | ignore
  | dot
  | underscore
  | all
deriving DecidableEq, Repr

/-- How declarations inside namespaces are named. -/
inductive NamespacePolicy
  /-- They are not read. -/
  | ignore
  /-- By their local name; on a conflict the shallower one counts, then the first one. -/
  | hoist
  | joinDot
  | joinUnderscore
deriving DecidableEq, Repr

/-- What becomes of declarations that are not exported. -/
inductive NonExportedPolicy
  | fail
  | ignore
  | included
  /-- References to them are expanded in place. -/
  | inline
  | includeIfReferenced
deriving DecidableEq, Repr

def UnsupportedPolicy.named : Entries UnsupportedPolicy :=
  [("ignore", ignore), ("warn", warn), ("error", error)]

def NamespaceSplit.named : Entries NamespaceSplit :=
  [("ignore", ignore), ("dot", dot), ("underscore", underscore), ("all", all)]

def NamespacePolicy.named : Entries NamespacePolicy :=
  [("ignore", ignore), ("hoist", hoist), ("join-dot", joinDot), ("join-underscore", joinUnderscore)]

def NonExportedPolicy.named : Entries NonExportedPolicy :=
  [("fail", fail), ("ignore", ignore), ("include", included), ("inline", inline),
    ("include-if-referenced", includeIfReferenced)]

/-- The name of a value among named values. -/
def nameIn {α : Type} [DecidableEq α] (named : Entries α) (value : α) : String :=
  ((named.find? (·.2 = value)).map Prod.fst).getD ""

namespace NamespaceSplit

def isSeparator (split : NamespaceSplit) (c : Char) : Bool :=
  match split with
  | ignore => false
  | dot => c == '.'
  | underscore => c == '_'
  | all => c == '.' || c == '_'

/-- The pieces between separators; empty ones do not count. -/
def pieces (split : NamespaceSplit) (s : List Char) : List (List Char) :=
  (s.splitOnP split.isSeparator).filter (!·.isEmpty)

/-- The namespaces of a name, outermost first, and its local part. A name of separators alone is local. -/
def apply (split : NamespaceSplit) (name : String) : List String × String :=
  let pieces := (split.pieces name.toList).map String.ofList
  match pieces.getLast? with
  | some last => (pieces.dropLast, last)
  | none => ([], name)

end NamespaceSplit

/-- What stands between a namespace and a name inside it. -/
def NamespacePolicy.separator? : NamespacePolicy → Option String
  | joinDot => some "."
  | joinUnderscore => some "_"
  | ignore | hoist => none

/-- Options of the way from schemas to declarations. -/
structure WriteOptions where
  filename : Option String := none
  sourceFilename : Option String := none
  useUnknown : Bool := false
  declaration : Bool := false
  userPackage : Option String := none
  userPackageUrl : Option String := none
  noDisableLintHeader : Bool := false
  noDescriptiveHeader : Bool := false
  namespaces : NamespaceSplit := .ignore
  /-- Has no effect: what cannot be written always fails. -/
  unsupported : UnsupportedPolicy := .warn

/-- Options of the way from declarations to schemas. -/
structure ReadOptions where
  namespaces : NamespacePolicy := .ignore
  nonExported : NonExportedPolicy := .includeIfReferenced
  unsupported : UnsupportedPolicy := .ignore

open Json (optional? orElse?)

/-- A named value, given by its name or as the only field of an object whose value passes `isUnit`. -/
def namedOfJson? {α : Type} (isUnit : Json → Bool) (named : Entries α) : Json → Option α
  | .string name => named.get? name
  | .object [(name, value)] => if isUnit value then named.get? name else none
  | _ => none

/-- The fields of a value: those of an object, or the values of a list under the given names. -/
def fieldsInOrder? (names : List String) : Json → Option (List (String × Json))
  | .object fields => some fields
  | .array items => if items.length ≤ names.length then some (names.zip items) else none
  | _ => none

def WriteOptions.fieldNames : List String :=
  ["filename", "source-filename", "use-unknown", "declaration", "user-package", "user-package-url",
    "no-disable-lint-header", "no-descriptive-header", "namespaces", "unsupported"]

/-- Options from an object, where unknown fields are passed over, or from the list of their first values. -/
def WriteOptions.ofJson? (isUnit : Json → Bool) (value : Json) : Option WriteOptions := do
  let fields ← fieldsInOrder? fieldNames value
  let base : WriteOptions := {}
  some {
    filename := ← optional? Json.asString? "filename" fields
    sourceFilename := ← optional? Json.asString? "source-filename" fields
    useUnknown := ← orElse? Json.asBool? base.useUnknown "use-unknown" fields
    declaration := ← orElse? Json.asBool? base.declaration "declaration" fields
    userPackage := ← optional? Json.asString? "user-package" fields
    userPackageUrl := ← optional? Json.asString? "user-package-url" fields
    noDisableLintHeader := ← orElse? Json.asBool? base.noDisableLintHeader "no-disable-lint-header" fields
    noDescriptiveHeader := ← orElse? Json.asBool? base.noDescriptiveHeader "no-descriptive-header" fields
    namespaces := ← orElse? (namedOfJson? isUnit NamespaceSplit.named) base.namespaces "namespaces" fields
    unsupported :=
      ← orElse? (namedOfJson? isUnit UnsupportedPolicy.named) base.unsupported "unsupported" fields }

def ReadOptions.fieldNames : List String := ["namespaces", "non-exported", "unsupported"]

/-- Options from an object, where unknown fields are passed over, or from the list of their first values. -/
def ReadOptions.ofJson? (isUnit : Json → Bool) (value : Json) : Option ReadOptions := do
  let fields ← fieldsInOrder? fieldNames value
  let base : ReadOptions := {}
  some {
    namespaces := ← orElse? (namedOfJson? isUnit NamespacePolicy.named) base.namespaces "namespaces" fields
    nonExported :=
      ← orElse? (namedOfJson? isUnit NonExportedPolicy.named) base.nonExported "non-exported" fields
    unsupported :=
      ← orElse? (namedOfJson? isUnit UnsupportedPolicy.named) base.unsupported "unsupported" fields }

/-- An absent text is written as `null`. -/
def textOrNull (text : Option String) : Json := (text.map Json.string).getD .null

def WriteOptions.toJson (o : WriteOptions) : Json :=
  .object [("filename", textOrNull o.filename), ("source-filename", textOrNull o.sourceFilename),
    ("use-unknown", .bool o.useUnknown), ("declaration", .bool o.declaration),
    ("user-package", textOrNull o.userPackage), ("user-package-url", textOrNull o.userPackageUrl),
    ("no-disable-lint-header", .bool o.noDisableLintHeader),
    ("no-descriptive-header", .bool o.noDescriptiveHeader),
    ("namespaces", .string (nameIn NamespaceSplit.named o.namespaces)),
    ("unsupported", .string (nameIn UnsupportedPolicy.named o.unsupported))]

def ReadOptions.toJson (o : ReadOptions) : Json :=
  .object [("namespaces", .string (nameIn NamespacePolicy.named o.namespaces)),
    ("non-exported", .string (nameIn NonExportedPolicy.named o.nonExported)),
    ("unsupported", .string (nameIn UnsupportedPolicy.named o.unsupported))]

end TypeSchema
