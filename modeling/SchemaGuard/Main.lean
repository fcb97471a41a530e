import SchemaGuard.CommandLine.Arguments
import SchemaGuard.CommandLine.Run

/-!
The program: takes the working directory into memory, runs the command on it and carries the outcome
out. Links are not followed, and a file that cannot be taken in is one that the disk refuses to
read.
-/

set_option autoImplicit false
set_option relaxedAutoImplicit false

namespace SchemaGuard

partial def gather (loc : Location) (d : Directory) : IO Directory := do
  let mut d := d
  for entry in ← ((← IO.currentDir) / Path.ofNames loc).readDir do
    let here := loc ++ [entry.fileName]
    match (← entry.path.symlinkMetadata).type with
    | .dir => d ← gather here { d with folders := here :: d.folders }
    | .file =>
      try
        let bytes ← IO.FS.readBinFile entry.path
        d := { d with contents := (here, bytes) :: d.contents }
      catch e =>
        let unreadable := d.disk.unreadable
        d := { d with
          contents := (here, ByteArray.empty) :: d.contents
          disk.unreadable := fun loc =>
            if loc = here then some (.other e.toString) else unreadable loc }
    | _ => pure ()
  return d

def carryOut (before after : Directory) : IO Unit := do
  for loc in after.folders.reverse do
    if before.find? loc == none then IO.FS.createDirAll (Path.ofNames loc)
  for (loc, bytes) in after.contents do
    if before.bytes? loc != some bytes then IO.FS.writeBinFile (Path.ofNames loc) bytes

def failureLines : List String → List String
  | [] => []
  | message :: causes =>
    let told := if causes.isEmpty then [] else "" :: "Caused by:" :: causes.map ("    " ++ ·)
    ("Error: " ++ message) :: told

def helpLines : List String :=
  ["Usage: schemaguard [-v] <declarations|guards|bundle|check> [options]", "",
    "  -s, --schema <pattern>...  schema files",
    "      --closed               reject keys the schema does not declare",
    "      --guard-prefix <text>  what guards are named by (declarations, guards, bundle)",
    "      --no-export            export nothing (declarations, guards, bundle)",
    "      --types-module <name>  where guards import types from (declarations, guards, bundle)",
    "  -o, --out <path>           the file to write (declarations, guards, bundle)",
    "      --type <type>          the type to check against (check)",
    "      --value <pattern>...   files of values (check)"]

def explain (usage : Usage) : IO UInt32 := do
  match usage with
  | .help => helpLines.forM fun line => IO.println line
  | .version => IO.println "schemaguard 0.1.0"
  | usage =>
    IO.eprintln ("error: " ++ usage.message)
    helpLines.forM fun line => IO.eprintln line
  return usage.exitCode.toUInt32

def perform (command : Command) : IO UInt32 := do
  let before ← gather [] (.ofFiles [])
  let outcome := command.run before
  IO.print outcome.printed
  carryOut before outcome.directory
  match outcome.ending with
  | .failure e => (failureLines e.messages).forM fun line => IO.eprintln line
  | _ => pure ()
  return outcome.ending.exitCode.toUInt32

end SchemaGuard

def main (args : List String) : IO UInt32 :=
  match SchemaGuard.Invocation.ofArguments args with
  | .error usage => SchemaGuard.explain usage
  | .ok invocation => SchemaGuard.perform invocation.command
