import MiniPascal.Command.Basic

/-!
The program: it gathers what the command works on, runs the command, and carries out what it says.
-/

namespace MiniPascal

namespace Shell

def toText (bytes : ByteArray) : Text := Text.decode bytes.toList

def toBytes (text : Text) : ByteArray := ⟨text.bytes.toArray⟩

def toName (text : Text) : String := String.ofList text.chars

/-- The environment variables that the command looks at. -/
def readVariables : IO EnvVars := do
  let mut env : EnvVars := []
  for name in EnvVars.names do
    match ← IO.getEnv (toName name) with
    | some value => env := env ++ [(name, Text.ofString value)]
    | none => pure ()
  return env

/-- Adds what lies at a path to what is known of the disk. -/
def look (disk : Disk) (path : Text) : IO Disk := do
  let name := toName path
  let (start, names) := disk.split path
  let place := Disk.follow start names
  try
    if ← (← IO.FS.realPath name).isDir then
      return { disk with emptyDirs := place :: disk.emptyDirs }
    else
      let bytes ← IO.FS.readBinFile name
      return { disk with files := Disk.put disk.files place (toText bytes) }
  catch _ => return disk

/-- Looks at every name on the way of a path. -/
def lookAlong (disk : Disk) (path : Text) : IO Disk := do
  let names := path.splitOn (.char '/')
  let mut found := disk
  for n in List.range names.length do
    let part := Text.join "/" (names.take (n + 1))
    if part ≠ [] then found ← look found part
  return found

/-- All paths that the command may read or write. -/
def pathsOf (s : Settings) : List Text :=
  s.files ++ s.files.map (Command.outputPath · s.output)

def readDisk (settings : Except LoadError Settings) : IO Disk := do
  let here := (Text.ofString (← IO.currentDir).toString).splitOn (.char '/')
  let mut disk : Disk := { here := here.filter (· ≠ []) }
  match settings with
  | .ok s =>
    for path in pathsOf s do
      if path ≠ Command.console then disk ← lookAlong disk path
  | .error _ => pure ()
  return disk

/-- Whether the command may read its standard input. -/
def readsInput (settings : Except LoadError Settings) : Bool :=
  match settings with
  | .ok s => s.mode = .run || s.files.contains Command.console
  | .error _ => false

partial def drain (stream : IO.FS.Stream) (done : ByteArray) : IO ByteArray := do
  let bytes ← stream.read 65536
  if bytes.isEmpty then return done else drain stream (done ++ bytes)

def readInput (settings : Except LoadError Settings) : IO Input := do
  if readsInput settings then
    return .ofText (toText (← drain (← IO.getStdin) .empty)) none
  else return .ofText [] none

def writeFiles (files : List (Path × Text)) : IO Unit := do
  for (path, text) in files do
    IO.FS.writeBinFile ("/" ++ toName (Text.join "/" path)) (toBytes text)

/-- Runs the command on more and more fuel, until it ends. -/
partial def finish (fuel : Nat) (env : EnvVars) (args : List Text) (w : World) :
    IO (Nat × World) := do
  match Command.runWithin fuel env args w with
  | some ended => return ended
  | none => finish (2 * fuel) env args w

def run (args : List String) : IO UInt32 := do
  let env ← readVariables
  let texts := args.map Text.ofString
  let settings := Settings.load env texts
  let disk ← readDisk settings
  let input ← readInput settings
  let stderr ← IO.getStderr
  let stdout ← IO.getStdout
  let world : World := { disk, input, terminal := ← stderr.isTty }
  let (status, after) ← finish Run.ampleFuel env texts world
  stdout.write ⟨after.stdout.written.toArray⟩
  stdout.flush
  stderr.write (toBytes after.errors)
  writeFiles (after.disk.changedSince disk)
  return UInt32.ofNat status

end Shell

end MiniPascal

def main (args : List String) : IO UInt32 := MiniPascal.Shell.run args
