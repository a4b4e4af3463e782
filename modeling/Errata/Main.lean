import Errata.Command.Program
import Std.Time.DateTime.Timestamp

/-!
# The command

Runs the program on the files of the system. Starting the linter is left to the shell: what it has
printed is read from standard input, as in `vale --output=JSON a.adoc | docfix check a.adoc`. The
files that a run can look at are read first, the program works on them, and what it has changed is
written back at the end.
-/
namespace Errata.Command

def now : IO Instant := do
  let time ← Std.Time.Timestamp.now
  match Instant.ofNanoseconds? time.toNanosecondsSinceUnixEpoch.val.toNat with
  | some t => return t
  | none => throw (IO.userError "the clock is out of range")

/-- Adds the file or directory at a path, if there is one. -/
def load (t : FileTree) (p : Path) : IO FileTree := do
  let place := (← IO.currentDir) / String.ofList p.text
  if ← place.isDir then return (t.createDirectories p).1
  else if ← place.pathExists then
    let content ← IO.FS.readBinFile place
    let t := match p.parent? with
      | some above => (t.createDirectories above).1
      | none => t
    return (t.write p content).toOption.getD t
  else return t

/-- Adds the directories in a directory, if there is one. -/
def loadDirectories (t : FileTree) (p : Path) : IO FileTree := do
  let place := (← IO.currentDir) / String.ofList p.text
  if ← place.isDir then
    (← place.readDir).foldlM (fun t entry => load t (p.join entry.fileName)) t
  else return t

/-- What the program finds around it before any file is loaded. The linter has printed
`payload`. -/
def surroundings (payload : ByteArray) : IO Surroundings := do
  let current : Path := ⟨(toString (← IO.currentDir)).toList⟩
  let temporary := (← IO.getEnv "TMPDIR").getD "/tmp"
  return {
    tree := FileTree.new (current.components.filterMap Path.Component.name?) temporary
    launch := fun _ => .ok ⟨.code 0, payload, .empty⟩
    startedAt := ← now
    endedAt := ← now }

/-- Loads what a run can look at: its configuration, the files that the linter reports on, and the
names that backup directories have already. -/
def loadFor (s : Surroundings) (args : RunArguments) : IO Surroundings := do
  let s := { s with tree := ← load s.tree (args.workingDir.join Configuration.fileName) }
  match Program.settings s args with
  | .error _ => return s
  | .ok settings =>
    let t ← (Program.sources s settings args).foldlM load s.tree
    return { s with tree := ← loadDirectories t (settings.backupRoot.getD t.temporary) }

/-- Writes back what is not in `t` as it is in `u`. -/
def store (t u : FileTree) : IO Unit := do
  for (l, e) in u.entries.reverse do
    if t.get? l ≠ some e then
      let place := String.ofList (FileTree.pathOf l).text
      match e with
      | .directory => IO.FS.createDirAll place
      | .file content => IO.FS.writeBinFile place content

def execute (args : List Text) : IO UInt32 := do
  let s ← match parse? args with
    | some (.check a) | some (.fix a _) =>
      loadFor (← surroundings (← (← IO.getStdin).readBinToEnd)) a
    | _ => surroundings .empty
  let o := Program.main s args
  store s.tree o.tree
  IO.print (String.ofList o.stdout)
  if let some e := o.error then
    IO.eprintln (String.ofList ("ERROR ".toList ++ Program.name ++ ": ".toList ++ e))
  return UInt32.ofNat o.exitCode

end Errata.Command

def main (args : List String) : IO UInt32 :=
  Errata.Command.execute (args.map fun arg => arg.toList)
