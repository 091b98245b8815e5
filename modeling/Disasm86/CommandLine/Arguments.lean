import Disasm86.Address.Parse
import Disasm86.Listing

/-!
# Command-line arguments

What a user asks for on the command line. Options have a long name behind two dashes,
and most have a letter behind one. A value stands behind its option as the next
argument, or in the same argument: behind an equals sign, or directly behind the
letter. Letters of options without a value can share a dash. Two dashes alone end the
options, and one dash alone is no option.

A value in an argument of its own must not look like an option. No option but the one
for entry points may be given twice.

Arguments are read from left to right, and the first that is wrong decides. A request
for the version or for help is answered as soon as it is read, whatever follows.

## Main definitions

* `Arguments`: A complete request.
* `Refusal`: Why there is no request.
* `Draft`: What has been read so far.
* `Draft.read`: Reads the arguments that are left.
* `Arguments.parse`: The request that arguments make.
-/

namespace Disasm86

/-- A request to disassemble a file. -/
structure Arguments where
  file : String
  /-- The offset of the first byte in the first segment. -/
  base : UInt16 := 0x100
  entries : List Address := []
  strategy : Strategy := .recursive
  format : ListingFormat := .text
  /-- Where the listing goes, if not to the terminal. -/
  output : Option String := none
  /-- How many slots of one jump table are read. -/
  tableSlots : Nat := 256
deriving DecidableEq, Repr

/-- Why arguments make no request. -/
inductive Refusal where
  /-- They are wrong. -/
  | usage
  | version
  | help
deriving DecidableEq, Repr

/-- An option with a value. -/
inductive ValueOption where
  | base
  | entry
  | strategy
  | format
  | output
  | tableSlots
deriving DecidableEq, Repr

/-- What a long name or a letter stands for. -/
inductive Switch where
  | value (option : ValueOption)
  | verbose
  | version
  | help
deriving DecidableEq, Repr

namespace Switch

/-- The switch of a long name; names cannot be shortened. -/
def ofName? : String → Option Switch
  | "base" => some (.value .base)
  | "entry" => some (.value .entry)
  | "strategy" => some (.value .strategy)
  | "format" => some (.value .format)
  | "output" => some (.value .output)
  | "max-jump-table" => some (.value .tableSlots)
  | "verbose" => some .verbose
  | "version" => some .version
  | "help" => some .help
  | _ => none

/-- The switch of a letter. -/
def ofLetter? : Char → Option Switch
  | 'e' => some (.value .entry)
  | 's' => some (.value .strategy)
  | 'f' => some (.value .format)
  | 'o' => some (.value .output)
  | 'v' => some .verbose
  | 'V' => some .version
  | 'h' => some .help
  | _ => none

end Switch

/-- What has been read so far. -/
structure Draft where
  file : Option String := none
  base : Option UInt16 := none
  entries : List Address := []
  strategy : Option Strategy := none
  format : Option ListingFormat := none
  output : Option String := none
  tableSlots : Option Nat := none
  verbose : Bool := false
deriving DecidableEq, Repr

/-- The offset that a text names: a hexadecimal number behind any number of `0x` and
    then `0X`, without blanks. -/
def parseBase? (s : String) : Option UInt16 :=
  match IntegerRange.unsigned16.read 16 (stripHexMarks s.toList) with
  | .ok n => some (UInt16.ofNat n.toNat)
  | .error _ => none

/-- The count that a text names. -/
def parseCount? (s : String) : Option Nat :=
  match IntegerRange.unsigned64.read 10 s.toList with
  | .ok n => some n.toNat
  | .error _ => none

/-- A path is any text but the empty one. -/
def parsePath? (s : String) : Option String :=
  if s.isEmpty then none else some s

/-- What is found, or a refusal of the arguments. -/
def orUsage {α : Type} : Option α → Except Refusal α
  | none => .error .usage
  | some a => .ok a

/-- A value for something that has none yet. -/
def setOnce {α : Type} (old : Option α) (new : Option α) : Except Refusal (Option α) :=
  match old, new with
  | none, some a => .ok (some a)
  | _, _ => .error .usage

namespace Draft

/-- Takes the value of an option. -/
def set (d : Draft) (option : ValueOption) (value : String) : Except Refusal Draft :=
  match option with
  | .base => do return { d with base := ← setOnce d.base (parseBase? value) }
  | .entry => do
    let entry ← orUsage (Address.parse value).toOption
    return { d with entries := d.entries ++ [entry] }
  | .strategy => do
    return { d with strategy := ← setOnce d.strategy (Strategy.parse value false).toOption }
  | .format => do return { d with format := ← setOnce d.format (ListingFormat.ofName? value) }
  | .output => do return { d with output := ← setOnce d.output (parsePath? value) }
  | .tableSlots => do
    return { d with tableSlots := ← setOnce d.tableSlots (parseCount? value) }

/-- Takes an argument that belongs to no option. There is only one of these. -/
def setFile (d : Draft) (path : String) : Except Refusal Draft := do
  return { d with file := ← setOnce d.file (parsePath? path) }

/-- Takes a switch without a value. -/
def raise (d : Draft) : Switch → Except Refusal Draft
  | .value _ => .error .usage
  | .verbose => if d.verbose then .error .usage else .ok { d with verbose := true }
  | .version => .error .version
  | .help => .error .help

/-- Takes an argument with a long name. If its value is still to come, the option is
    handed back. -/
def takeLong (d : Draft) (argument : List Char) : Except Refusal (Draft × Option ValueOption) :=
  let name := argument.takeWhile (· ≠ '=')
  let value := argument.dropWhile (· ≠ '=')
  match Switch.ofName? (String.ofList name), value with
  | none, _ => .error .usage
  | some (.value option), [] => .ok (d, some option)
  | some (.value option), _ :: value => do return (← d.set option (String.ofList value), none)
  | some switch, [] => do return (← d.raise switch, none)
  | some _, _ :: _ => .error .usage

/-- Takes an argument of letters. If the value of the last is still to come, the option
    is handed back. -/
def takeLetters (d : Draft) : List Char → Except Refusal (Draft × Option ValueOption)
  | [] => .ok (d, none)
  | c :: cs =>
    match Switch.ofLetter? c, cs with
    | none, _ => .error .usage
    | some (.value option), [] => .ok (d, some option)
    | some (.value option), '=' :: value => do
      return (← d.set option (String.ofList value), none)
    | some (.value option), value => do return (← d.set option (String.ofList value), none)
    | some switch, cs => do (← d.raise switch).takeLetters cs

/-- Takes arguments that are not options, whatever they look like. -/
def readFiles (d : Draft) : List String → Except Refusal Draft
  | [] => .ok d
  | path :: rest => do (← d.setFile path).readFiles rest

/-- Reads the arguments that are left. `waiting` is the option whose value comes
    next. -/
def read (d : Draft) (waiting : Option ValueOption) : List String → Except Refusal Draft
  | [] => if waiting.isSome then .error .usage else .ok d
  | argument :: rest =>
    match argument.toList, waiting with
    | '-' :: _ :: _, some _ => .error .usage
    | ['-', '-'], none => d.readFiles rest
    | '-' :: '-' :: long, none => do
      let (d, waiting) ← d.takeLong long
      d.read waiting rest
    | '-' :: c :: cs, none => do
      let (d, waiting) ← d.takeLetters (c :: cs)
      d.read waiting rest
    | _, some option => do (← d.set option argument).read none rest
    | _, none => do (← d.setFile argument).read none rest

/-- Fills in what was not given. A file has to be. -/
def finish (d : Draft) : Except Refusal Arguments := do
  return {
    file := ← orUsage d.file
    base := d.base.getD 0x100
    entries := d.entries
    strategy := d.strategy.getD .recursive
    format := d.format.getD .text
    output := d.output
    tableSlots := d.tableSlots.getD 256 }

end Draft

/-- The request that arguments make. -/
def Arguments.parse (arguments : List String) : Except Refusal Arguments := do
  (← Draft.read {} none arguments).finish

end Disasm86
