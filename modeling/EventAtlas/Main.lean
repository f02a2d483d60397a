import EventAtlas.CommandLine.Reply

/-!
# The program

The part of the file system that a command reads is copied to a disk, the command is evaluated there, and the file that
it asks for is written. A mistake in the command line is reported apart from the output.
-/

namespace EventAtlas.CommandLine

/-- The disk with the source files of a directory, which has this path and this name on the disk. -/
partial def copyTree (path name : String) (d : Disk) : IO Disk := do
  let directory := (← IO.currentDir) / path
  let mut d := d.addDirectory (name.length + 1) name
  for entry in ← directory.readDir do
    let below := path ++ "/" ++ entry.fileName
    let belowName := Disk.join name entry.fileName
    if ← entry.path.isDir then d ← copyTree below belowName d
    else if Language.ofPath entry.fileName = .php then d := d.add belowName (← IO.FS.readBinFile entry.path)
  return d

/-- The disk with the directories on the way along a path, and with the file at its end. The rest of the path leads on
from a directory, which has this path and this name on the disk. -/
def copyWay (path name : String) (d : Disk) : List String → IO (Disk × String)
  | [] => return (d, name)
  | step :: rest => do
    let next := path ++ step
    let nextName := if step.isEmpty || step == "." then name else if step == ".." then Disk.parentOf name
      else Disk.join name step
    let place := (← IO.currentDir) / next
    if ← place.isDir then
      copyWay (next ++ "/") nextName (d.addDirectory (nextName.length + 1) nextName) rest
    else if ← place.pathExists then
      return (d.add nextName (← IO.FS.readBinFile place), nextName)
    else return (d, nextName)

/-- The disk with what a path leads to, and the name that this has on the disk. -/
def copyPath (path : String) (d : Disk) : IO (Disk × String) :=
  if path.isEmpty then return (d, "")
  else if Text.startsWith "/" path then copyWay "/" "" d (Text.splitAt '/' path)
  else copyWay "" d.working d (Text.splitAt '/' path)

/-- The disk on which a command is evaluated. -/
def diskFor (c : Command) : IO Disk := do
  let working := Text.dropLeft (· == '/') (← IO.currentDir).toString
  let mut d := ({ working } : Disk).addDirectory (working.length + 1) working
  for path in c.inputs do
    d := (← copyPath path d).1
  match c.root? with
  | none => return d
  | some root =>
    let (copied, name) ← copyPath root d
    if (copied.directory? root).isSome then copyTree root name copied else return copied

/-- Write the file that a command asks for. -/
def perform (o : Outcome) : IO (Except Fault Json) := do
  match o.file with
  | none => return .ok o.report
  | some (path, text) =>
    try
      IO.FS.writeFile path text
      return .ok o.report
    catch _ => return .error IndexError.snapshotFile.toFault

def replyTo (r : Request) : IO Reply := do
  match r with
  | .run c =>
    let d ← diskFor c
    if c.breaksOff d then return .brokenOff
    match c.evaluate d with
    | .ok o => return .ofResult (← perform o)
    | .error e => return .ofResult (.error e)
  | r => return (immediate r).getD .usageError

end EventAtlas.CommandLine

open EventAtlas CommandLine in
def main (words : List String) : IO UInt32 := do
  let reply ← match request? words with
    | some r => replyTo r
    | none => do
      (← IO.getStderr).putStrLn ("error: the command line cannot be read; see '" ++ programName ++ " --help'")
      pure Reply.usageError
  (← IO.getStdout).putStr reply.output
  return UInt32.ofNat reply.code
