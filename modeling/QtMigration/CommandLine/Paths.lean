import QtMigration.CommandLine.Session

/-!
# CommandLine/Paths — checking the paths that are given
-/

namespace QtMigration

/-- A path from the root: a relative one is normalized, an absolute one is left as it is. -/
def FileTree.fullPath (t : FileTree) (path : Text) : Text :=
  if Path.isAbsolute path then path else Path.normalize (Path.join t.herePath path)

namespace Job

/-- The full path of something that has to be there. -/
def checkExisting (path : Text) : Job (Option Text) := do
  let t ← tree
  let full := t.fullPath path
  if t.has full then return some full
  print ("No such file or directory: `" ++ full ++ "`\n")
  return none

/-- The full path of something that is to be written: the directory for it has to be there. -/
def checkWritable (path : Text) : Job (Option Text) := do
  let t ← tree
  let full := t.fullPath path
  if t.has (Path.parent full) then return some full
  print ("Destination dir `" ++ Path.parent full ++ "` is read only\n")
  return none

/-- The path, or the end of the run if there is none. -/
def orLeave (check : Job (Option Text)) : Job Text := do
  match ← check with
  | some path => return path
  | none => throw .leave

end Job

end QtMigration
