import TypeSchema.Entries
import TypeSchema.FileName

namespace TypeSchema

structure Directory where
  /-- The files under the steps of their paths, each path once. -/
  files : List (List String × String) := []

namespace Directory

def ofEntries (files : Entries String) : Directory :=
  ⟨files.map fun (path, text) => ((pathSteps path).filter fun step => step ≠ "" && step ≠ ".", text)⟩

/-- Is there a directory at this place? -/
def isDirectory (dir : Directory) (place : List String) : Bool :=
  place.isEmpty || dir.files.any fun (path, _) => place.isPrefixOf path && place.length < path.length

/-- The place that steps lead to from another. Every step but the last is a directory that is there; there is no
way up out of the whole. -/
def walk? (dir : Directory) (place : List String) : List String → Option (List String)
  | [] => some place
  | step :: rest =>
    if !dir.isDirectory place then none
    else if step = "" ∨ step = "." then walk? dir place rest
    else if step = ".." then if place.isEmpty then none else walk? dir place.dropLast rest
    else walk? dir (place ++ [step]) rest

/-- The place of a relative path. -/
def place? (dir : Directory) (path : String) : Option (List String) :=
  if path.isEmpty || path.toList.head? = some '/' then none else dir.walk? [] (pathSteps path)

def read? (dir : Directory) (path : String) : Option String := do
  let place ← dir.place? path
  (dir.files.find? (·.1 = place)).map Prod.snd

/-- The directory with a text in a file, unless a directory stands there. -/
def write? (dir : Directory) (path text : String) : Option Directory := do
  let place ← dir.place? path
  if dir.isDirectory place then none
  else some ⟨dir.files.filter (·.1 ≠ place) ++ [(place, text)]⟩

end Directory

end TypeSchema
