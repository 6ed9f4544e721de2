import TreeCode.CommandLine.Command

/-!
# The program

Reads and writes the files of the machine for a command.
-/

namespace TreeCode.CommandLine

/-- What is shown to who asks for help or gives arguments that are no command. -/
def helpText : String :=
  "Assembles tree IR methods for AArch64 or x86-64.\n\n"
    ++ "usage: [options] INPUT\n\n"
    ++ "  INPUT              a file, or - for the standard input\n"
    ++ "  --isa ISA          host, aarch64 or x86-64\n"
    ++ "  --emit PRODUCT     tree, hex, asm or obj\n"
    ++ "  --base ADDR        the address of the code\n"
    ++ "  --scalarize        take vector operations apart that are no instructions\n"
    ++ "  --sse41            assume SSE4.1\n"
    ++ "  -o, --output PATH  the file to write\n"
    ++ "  --cpu-info         describe the processor\n"

/-- What a failure with a file is to a command. -/
def FileError.ofIO : IO.Error → FileError
  | .noFileOrDirectory .. => .notFound
  | .permissionDenied .. => .permissionDenied
  | .inappropriateType .. => .isDirectory
  | e => .other e.toString

/-- Does something with a file. -/
def attempt {α : Type} (action : IO α) : IO (Except FileError α) := do
  try
    return .ok (← action)
  catch e =>
    return .error (FileError.ofIO e)

/-- All bytes of a stream behind those given. -/
partial def readAll (stream : IO.FS.Stream) (bytes : ByteArray) : IO ByteArray := do
  let more ← stream.read 65536
  if more.isEmpty then return bytes else readAll stream (bytes ++ more)

/-- The files of the machine. -/
def systemFiles : Files IO where
  read path := do
    let bytes ← attempt do
      if path == "-" then readAll (← IO.getStdin) .empty else IO.FS.readBinFile path
    return bytes.bind fun b =>
      match String.fromUTF8? b with
      | some text => .ok text
      | none => .error .notText
  write path bytes := attempt (IO.FS.writeBinFile path ⟨bytes.toArray⟩)
  print bytes := do (← IO.getStdout).write ⟨bytes.toArray⟩

end TreeCode.CommandLine

open TreeCode.CommandLine

/-- Runs a command. -/
def main (arguments : List String) : IO UInt32 := do
  let ending ← run systemFiles arguments
  match ending with
  | .usage .help => IO.print helpText
  | .usage .invalid => IO.eprint helpText
  | _ => IO.eprint ending.diagnosis
  return ending.status
