/-
  SeaOfNodes.Main

  The program on real files.  What a run may look at is read beforehand; then the
  run is computed, and what it leaves behind is written.
-/
import SeaOfNodes.Program.Run

namespace SeaOfNodes.Main

open Files (Content Disk Entry Fault Mount)

/-- The fault that an error of the system stands for. -/
def faultOf : IO.Error → Fault
  | .inappropriateType _ code _ => if code = 21 then .isDirectory else .notDirectory
  | _ => .missing

/-- Read what stands at a path that can be opened. -/
partial def readEntry (path : String) : IO Entry := do
  let place ← IO.FS.realPath path
  if ← place.isDir then
    let children ← place.readDir
    let entries ← children.toList.mapM fun child => do
      return (child.fileName, ← readEntry child.path.toString)
    return .dir entries
  else return .file (← IO.FS.readBinFile place).toList

/-- Look up a path. -/
def lookUp (path : String) : IO (Except Fault Entry) := do
  try
    IO.FS.withFile path .read fun _ => pure ()
    return .ok (← readEntry path)
  catch e => return .error (faultOf e)

/-- Whether a file can be created at a path. -/
def canCreate (path : String) : IO (Except Fault Unit) := do
  match ← lookUp path with
  | .ok (.file _) => return .ok ()
  | .ok (.dir _) => return .error .isDirectory
  | .error .missing =>
    let names := (Files.segments path).dropLast
    let parent := if names.isEmpty then "." else "/".intercalate names ++ "/"
    match ← lookUp parent with
    | .ok (.dir _) => return .ok ()
    | .ok (.file _) => return .error .notDirectory
    | .error fault => return .error fault
  | .error fault => return .error fault

/-- The files that a run may look at. -/
def diskFor (arguments : List String) : IO Disk := do
  match CommandLine.parse arguments with
  | .ok (.run c) =>
    return .ofMounts
      [⟨c.settingsPath, ← lookUp c.settingsPath⟩, ⟨c.graphPath, ← lookUp c.graphPath⟩]
      (← canCreate c.outPath)
  | _ => return .ofMounts [] (.error .missing)

/-- Run the program. -/
def run (arguments : List String) : IO UInt32 := do
  let (r, log) := Program.run (← diskFor arguments) arguments
  let errors ← IO.getStderr
  log.forM errors.putStrLn
  (← IO.getStdout).write ⟨r.output.toArray⟩
  if let some (path, content) := r.file? then IO.FS.writeBinFile path ⟨content.toArray⟩
  if let some e := r.error? then errors.putStrLn e.message
  return UInt32.ofNat r.exitCode

end SeaOfNodes.Main

/-- The command line program. -/
def main (arguments : List String) : IO UInt32 := SeaOfNodes.Main.run arguments
