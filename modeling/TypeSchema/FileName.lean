namespace TypeSchema

/-- What stands between the strokes of a path. -/
def pathSteps (path : String) : List String :=
  (path.toList.splitOnP (· == '/')).map String.ofList

/-- The name of the file that a path leads to. Empty steps and single points do not count, and the way up is
no name. -/
def fileName? (path : String) : Option String :=
  ((pathSteps path).filter fun step => step ≠ "" && step ≠ ".").getLast?.filter (· ≠ "..")

/-- What stands after the last point of a file name, unless that point is the first character. -/
def extension? (path : String) : Option String := do
  let name := (← fileName? path).toList
  let last := (name.reverse.takeWhile (· ≠ '.')).reverse
  if last.length + 1 < name.length then some (String.ofList last) else none

def typeScriptExtensions : List String := ["ts", "mts", "cts"]

def looksLikeTypeScript (path : String) : Bool :=
  (extension? path).any typeScriptExtensions.contains

end TypeSchema
