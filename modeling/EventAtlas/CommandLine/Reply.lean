import EventAtlas.CommandLine.Help

/-!
# Replies

What the program prints and the code with which it ends. A mistake in the command line and a command that breaks off are
not reported on the output; everything else is, faults as reports.
-/

namespace EventAtlas.CommandLine

structure Reply where
  output : String
  code : Nat
deriving Inhabited, Repr, DecidableEq

namespace Reply

/-- The reply to a command line with a mistake in it. -/
def usageError : Reply :=
  ⟨"", 2⟩

def brokenOff : Reply :=
  ⟨"", 101⟩

def ofResult : Except Fault Json → Reply
  | .ok report => ⟨Report.emit report, 0⟩
  | .error e => ⟨Report.emit (Report.fault e), e.code⟩

end Reply

/-- The reply that needs no command. -/
def immediate : Request → Option Reply
  | .help none inFull => some ⟨Help.program inFull, 0⟩
  | .help (some c) _ => some ⟨Help.command c, 0⟩
  | .version => some ⟨versionLine, 0⟩
  | .run _ => none

/-- Run the program on a disk. -/
def execute (words : List String) (d : Disk) : Reply × Disk :=
  match request? words with
  | none => (.usageError, d)
  | some (.run c) =>
    if c.breaksOff d then (.brokenOff, d)
    else
      let (result, d) := c.run d
      (.ofResult result, d)
  | some r => ((immediate r).getD .usageError, d)

end EventAtlas.CommandLine
