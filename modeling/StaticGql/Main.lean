import StaticGql.Cli.Run

/-!
The program. The paths of the files that a run may see come on standard input, one a line; what a
command changes among them is written back.
-/

open StaticGql

namespace StaticGql.Main

partial def readPaths (input : IO.FS.Stream) (paths : List String) : IO (List String) := do
  let line ← input.getLine
  if line.isEmpty then return paths.reverse
  let path := String.ofList (line.toList.filter fun c => c ≠ '\n' && c ≠ '\r')
  readPaths input (if path.isEmpty then paths else path :: paths)

def contentOf (bytes : ByteArray) : Disk.Content :=
  match String.fromUTF8? bytes with
  | some s => .text s
  | none => .binary

/-- A file that cannot be read is as if it were not there. -/
def load (d : Disk) (path : String) : IO Disk := do
  try
    let bytes ← IO.FS.readBinFile path
    match d.create path (contentOf bytes) with
    | .ok d => return d
    | .error _ => return d
  catch _ => return d

/-- The files that differ from what they were. -/
def changed (before after : Disk) : List (String × String) :=
  after.files.toList.filterMap fun (path, content) =>
    match content with
    | .text s => if before.files.get? path = some content then none else some (path, s)
    | .binary => none

def store (before after : Disk) : IO Unit :=
  (changed before after).forM fun (path, s) => do
    match Path.above? path with
    | some folder => IO.FS.createDirAll folder
    | none => pure ()
    IO.FS.writeFile path s

def run (i : Cli.Invocation) : IO UInt32 := do
  let current := toString (← IO.currentDir)
  let paths ← readPaths (← IO.getStdin) []
  let before ← paths.foldlM load (Disk.empty current)
  let out := Cli.run i.command before
  store before out.disk
  (← IO.getStderr).putStr out.stderr
  (← IO.getStdout).putStr out.stdout
  return out.exitCode.toUInt32

end StaticGql.Main

def main (args : List String) : IO UInt32 := do
  match Cli.parse args with
  | .ok i => StaticGql.Main.run i
  | .error u =>
    let stream ← if u.exitCode = 0 then IO.getStdout else IO.getStderr
    stream.putStr u.text
    return u.exitCode.toUInt32
