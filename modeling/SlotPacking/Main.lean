import SlotPacking.CommandLine.Run

/-!
The command line program, on the files and the standard error of the system.
-/
namespace SlotPacking.CommandLine

def usage : String :=
  "Usage: slot-packing --params <PARAMS> --image <IMAGE> [--level <LEVEL>] [--output <OUTPUT>]"

/-- An error of the system by its number, which some calls give with the opposite sign. -/
def systemError (text : String) (code : UInt32) : FileError :=
  let number := if code.toInt32 < 0 then (-code).toNat else code.toNat
  match number with
  | 2 => .notFound
  | 20 => .notDirectory
  | 21 => .isDirectory
  | 36 => .nameTooLong
  | number => .system text number

def fileError : IO.Error → FileError
  | .noFileOrDirectory _ code text | .inappropriateType _ code text
  | .permissionDenied _ code text | .alreadyExists _ code text
  | .invalidArgument _ code text | .resourceExhausted _ code text
  | .noSuchThing _ code text | .interrupted _ code text
  | .otherError code text | .resourceBusy code text
  | .resourceVanished code text | .unsupportedOperation code text
  | .hardwareFault code text | .unsatisfiedConstraints code text
  | .illegalOperation code text | .protocolError code text
  | .timeExpired code text => systemError text code
  | .unexpectedEof => .system "unexpected end of file" 0
  | .userError text => .system text 0

def systemFiles : Files IO where
  read path := do
    try return .ok (← IO.FS.readBinFile path) catch e => return .error (fileError e)
  write path text := do
    try
      IO.FS.writeFile path text
      return .ok ()
    catch e => return .error (fileError e)
  report line := IO.eprintln line

def execute (args : List String) : IO UInt32 :=
  match request args with
  | .usageError => do
    IO.eprintln usage
    return 2
  | .help => do
    IO.println usage
    return 0
  | .run arguments => do
    let code ← run systemFiles arguments
    return UInt32.ofNat code

end SlotPacking.CommandLine

def main (args : List String) : IO UInt32 := SlotPacking.CommandLine.execute args
