import Disasm86.CommandLine.Arguments

/-!
# The command line

What the program does with a request: read the file, disassemble it, and write the
listing to the terminal or to a file. How files are read and written is left to the
caller, so that the same program runs on a disk and in memory.

A program that cannot do what it was asked for ends with a report of the reasons, from
the step that failed down to the first cause. Wrong arguments end it before any file is
touched. A program that breaks off in the middle ends without such a report.

## Main definitions

* `Files`: Reading and writing files.
* `Outcome`: What the program prints, and how it ends.
* `errorReport`: The report of a step that failed.
* `CommandLine.run`: Runs the program on its arguments.
-/

namespace Disasm86

/-- Reading and writing files by path; a refusal comes with the reason the system
    gives. -/
structure Files (m : Type → Type) where
  read : String → m (Except String (Array UInt8))
  write : String → String → m (Except String Unit)

/-- What the program leaves behind when it ends. -/
structure Outcome where
  /-- The exit code, zero for success. -/
  code : Nat := 0
  /-- What was written to the terminal. -/
  output : String := ""
  /-- The report of what went wrong. -/
  error : Option String := none
deriving DecidableEq, Repr

/-- Text with every line but the first moved to the right. -/
def indentAfterFirst (width : Nat) (s : String) : String :=
  ("\n" ++ String.ofList (List.replicate width ' ')).intercalate (s.splitOn "\n")

/-- The lines of the causes of a failed step. A single cause has no number. -/
def causeLines : List String → List String
  | [cause] => ["    " ++ indentAfterFirst 4 cause]
  | causes => causes.zipIdx.map fun (cause, n) =>
    let number := toString n
    String.ofList (List.replicate (5 - number.length) ' ') ++ number ++ ": "
      ++ indentAfterFirst 7 cause

/-- The report of a step that failed, with its causes. -/
def errorReport (step : String) (causes : List String) : String :=
  "Error: " ++ step ++ "\n\nCaused by:\n" ++ "\n".intercalate (causeLines causes)

/-- The program ends because a step failed. -/
def Outcome.failed (step : String) (causes : List String) : Outcome where
  code := 1
  error := some (errorReport step causes)

/-- The program breaks off. -/
def Outcome.brokenOff : Outcome where
  code := 101

namespace CommandLine

/-- The name and version of the program. -/
def versionText : String := "realflow 0.1.0\n"

/-- How the program is called. -/
def helpText : String :=
  "Decode and flow-analyze raw 16-bit x86 images\n\nUsage: realflow [OPTIONS] <FILE>\n"

/-- The image in the bytes of a file. -/
def loadImage (arguments : Arguments) (contents : Except String (Array UInt8)) :
    Except Failure Image :=
  match contents with
  | .error cause => .error (.unreadable cause)
  | .ok data =>
    if data.isEmpty then .error (.emptyFile arguments.file) else .ok (.ofBytes data arguments.base)

/-- The listing of an image. -/
def listImage (arguments : Arguments) (image : Image) : Except Failure String :=
  let options : AnalysisOptions := { limits := { tableSlots := arguments.tableSlots } }
  match arguments.strategy.run image {} arguments.entries options (fun _ => false) with
  | .error failure => .error failure
  | .ok disassembly => .ok (disassembly.listing arguments.format)

/-- The listing that a request asks for, given what reading its file came to. -/
def listing (arguments : Arguments) (contents : Except String (Array UInt8)) :
    Except Outcome String :=
  match loadImage arguments contents with
  | .error failure => .error (.failed ("Failed to load " ++ arguments.file) failure.causes)
  | .ok image =>
    match listImage arguments image with
    | .error (.overflow _) => .error .brokenOff
    | .error failure => .error (.failed "Analysis failed" failure.causes)
    | .ok text => .ok text

/-- Runs the program on its arguments. -/
def run {m : Type → Type} [Monad m] (files : Files m) (arguments : List String) : m Outcome :=
  match Arguments.parse arguments with
  | .error .usage => return { code := 2 }
  | .error .version => return { output := versionText }
  | .error .help => return { output := helpText }
  | .ok arguments => do
    match listing arguments (← files.read arguments.file) with
    | .error outcome => return outcome
    | .ok text =>
      match arguments.output with
      | none => return { output := text }
      | some path =>
        match ← files.write path text with
        | .ok () => return {}
        | .error cause => return .failed ("Failed to write " ++ path) [cause]

end CommandLine

end Disasm86
