import Disasm86.Listing
import Disasm86.Proofs.Accounting
import Disasm86.Proofs.Contents
import Disasm86.Proofs.History
import Disasm86.Proofs.Labels
import Disasm86.Proofs.Resolution

/-!
# Listings Leave Nothing Out

A listing goes through the blocks of an analysis, and its count comes from the index of
instructions. The two agree: block after block, the instructions of the blocks are those of
the index, each of them once and in the order of their addresses.

Every instruction of the index has a block, since its bytes are code and the blocks cover all
code. It has only one, since blocks do not share bytes. And the blocks are listed by ascending
start, so all instructions of a block are listed before those of a later one start.

Then each format is compared with the index as a whole. Plain text is taken as it is printed. It
is cut at its line ends, and the lines of instructions are those that begin with two blanks;
neither a comment nor a label does. For the cut to give the lines back, none of them may have a
line end inside, and the diagnostics are what takes work there: their messages are not made up
when the listing is, but come from all over the analysis. JSON and tables are taken as they are
before they are written out, as a tree and as rows.

## Main definitions

* `isIndented`: Whether a line is that of an instruction.
* `JsonValue.member`, `JsonValue.items`: The parts of a value.
* `CsvRow.bare`: A row without what it says about the block.
* `Analysis.instructionLines`, `Analysis.instructionObjects`: What is printed for instructions.
* `Analysis.ListsAll`: What the formats show of the instructions of an analysis.

## Theorems

* `LaidOut.flatMap_inRange`: The blocks list the index.
* `Analysis.oneLine_lines`: No line of a listing has a line end inside.
* `Analysis.filter_lines`: The indented lines of a listing.
* `Analysis.instructionLines_eq`: The same lines, found in the text that is printed.
* `Analysis.instructionObjects_eq`: The instructions of a JSON listing.
* `Analysis.map_bare_csvRows`: The rows of a tabular listing.
* `Analysis.oneLine_messages`: The messages of a finished analysis stay on their lines.
* `analyzeImage_listsAll`: All listings show every instruction once.
-/

namespace Disasm86

theorem CodeIndex.ascending_toList (x : CodeIndex) : Ascending x.toList :=
  x.instructions.ordered_keys_toList

theorem CodeIndex.mem_toList_iff {x : CodeIndex} {a : Address} {i : Instruction} :
    (a, i) ∈ x.toList ↔ x.get? a = some i :=
  Std.TreeMap.mem_toList_iff_getElem?_eq_some

theorem CodeIndex.length_toList (x : CodeIndex) : x.toList.length = x.size :=
  Std.TreeMap.length_toList

/-- Blocks of different segments are ordered by segment, and then so is all that they
    cover. -/
theorem Block.compare_of_contains {b c : Block} {a a' : Address} (ha : b.contains a)
    (ha' : c.contains a') (hstart : compare b.start c.start = .lt)
    (hapart : b.start.segment = c.start.segment → b.stopOffset ≤ c.start.offset.toInt) :
    compare a a' = .lt := by
  rcases Block.contains_iff.mp ha with ⟨hseg, -, hhi⟩
  rcases Block.contains_iff.mp ha' with ⟨hseg', hlo, -⟩
  rw [Address.compare_eq_lt_iff, hseg, hseg']
  rcases Address.compare_eq_lt_iff.mp hstart with hlt | ⟨heq, -⟩
  · exact Or.inl hlt
  · have hstop := hapart heq
    unfold Block.stopOffset at hstop
    exact Or.inr ⟨heq, by omega⟩

namespace LaidOut

variable {image : Image} {context : DecodeContext} {s : Session}

/-- The instructions of a block are in order, and those of a later block come behind them. -/
theorem ascending_flatMap_inRange (h : LaidOut image context s) :
    Ascending (s.blocks.inOrder.flatMap fun x => s.code.inRange x.2.start x.2.stop) := by
  refine List.pairwise_flatMap.mpr ⟨fun x _ => s.code.ascending_inRange _ _, ?_⟩
  refine h.wellFormed.pairwise_inOrder.imp_of_mem fun {x y} hx hy hlt e he e' he' => ?_
  have hgetx := h.wellFormed.mem_inOrder_iff.mp hx
  have hgety := h.wellFormed.mem_inOrder_iff.mp hy
  have hin := ((h.wellFormed.mem_inRange_iff hgetx).mp he).2
  have hin' := ((h.wellFormed.mem_inRange_iff hgety).mp he').2
  refine Block.compare_of_contains hin hin' hlt fun hseg => ?_
  -- The later start cannot lie in front, so it lies behind the end of the other block.
  have hstart := (Address.compare_eq_lt_iff_of_segment_eq hseg).mp hlt
  have hne : x.1 ≠ y.1 := by
    intro heq
    rw [heq, hgety, Option.some.injEq] at hgetx
    rw [hgetx] at hstart
    omega
  rcases h.wellFormed.apart hgetx hgety hne hseg with hle | hle
  · exact hle
  · have hpos := h.wellFormed.positive hgety
    unfold Block.stopOffset at hle
    omega

/-- Block after block, the instructions of the blocks are those of the index. Both lists ascend, and
    they have the same members since every instruction lies in one block. -/
theorem flatMap_inRange (h : LaidOut image context s) :
    s.blocks.inOrder.flatMap (fun x => s.code.inRange x.2.start x.2.stop) = s.code.toList := by
  refine h.ascending_flatMap_inRange.eq_of_mem_iff s.code.ascending_toList fun a i => ?_
  rw [List.mem_flatMap, CodeIndex.mem_toList_iff]
  constructor
  · intro hmem
    rcases hmem with ⟨⟨id, b⟩, hb, hin⟩
    exact ((h.wellFormed.mem_inRange_iff (h.wellFormed.mem_inOrder_iff.mp hb)).mp hin).1
  · -- The instruction is code from its first byte on, so a block encloses it.
    intro hi
    have hcode : (s.bytes.get a).kind = .code := by
      rw [h.marked hi (h.spans_self hi)]
    rcases h.enclosed hcode with ⟨id, b, hget, hin⟩
    exact ⟨(id, b), h.wellFormed.mem_inOrder_iff.mpr hget,
      (h.wellFormed.mem_inRange_iff hget).mpr ⟨hi, hin⟩⟩

end LaidOut

/-- Whether a line begins with two blanks, as those of instructions do. -/
def isIndented (line : String) : Bool := [' ', ' '].isPrefixOf line.toList

theorem isIndented_append {s : String} {c : Char} (h : s.toList.head? = some c) (hc : ' ' ≠ c)
    (t : String) : isIndented (s ++ t) = false := by
  rcases List.head?_eq_some_iff.mp h with ⟨cs, hcs⟩
  rw [isIndented, String.toList_append, hcs, List.cons_append, List.isPrefixOf_cons_cons,
    beq_eq_false_iff_ne.mpr hc, Bool.false_and]

/-- Comments begin with a semicolon. -/
theorem isIndented_comment {s : String} (h : s.toList.head? = some ';') (t : String) :
    isIndented (s ++ t) = false :=
  isIndented_append h (by decide) t

/-- The lines of instructions are indented. -/
theorem isIndented_instructionLine (names : Naming) (x : Address × Instruction) :
    isIndented (instructionLine names x) := by
  simp [isIndented, instructionLine]

/-- The label of an address is not indented, whether it is a block's or a procedure's. -/
theorem Labels.isIndented_of_resolve {a : Analysis} {x : Address} {name : String}
    (h : (Labels.ofAnalysis a).resolve x = some name) : isIndented (name ++ ":") = false := by
  rcases eq_label_of_resolve h with rfl | rfl
  · simp only [label, String.append_assoc]
    exact isIndented_append (c := 'p') (by decide) (by decide) _
  · simp only [label, String.append_assoc]
    exact isIndented_append (c := 'l') (by decide) (by decide) _

namespace JsonValue

/-- The first member of a name, or nothing if there is none. -/
def member (name : String) : JsonValue → JsonValue
  | object members => (members.lookup name).getD null
  | _ => null

/-- The items of a list; other values have none. -/
def items : JsonValue → List JsonValue
  | array items => items
  | _ => []

end JsonValue

/-- A row without what it says about the block. -/
def CsvRow.bare (r : CsvRow) : CsvRow := { r with block := "", blockKind := "", procedure := "" }

namespace Analysis

/-- The instructions of all blocks, block after block. -/
def listed (a : Analysis) : List (Address × Instruction) :=
  a.blocks.inOrder.flatMap fun x => a.blockInstructions x.2

/-- A part that is made of comments leaves nothing. -/
theorem filter_part (heading : String) (lines : List String)
    (hheading : isIndented heading = false) (hlines : ∀ l ∈ lines, isIndented l = false) :
    (part heading lines).filter isIndented = [] := by
  have hnone : lines.filter isIndented = [] := by
    rw [List.filter_eq_nil_iff]
    intro l hl
    rw [hlines l hl]
    decide
  unfold part
  split
  · rfl
  · rw [List.filter_cons_of_neg (by decide), List.filter_cons_of_neg (by rw [hheading]; decide),
      hnone]

/-- Of the lines of a block those of its instructions are left. -/
theorem filter_blockLines (a : Analysis) (x : Nat × Block) :
    (a.blockLines (Labels.ofAnalysis a) x).filter isIndented
      = (a.blockInstructions x.2).map (instructionLine (Labels.ofAnalysis a).resolve) := by
  have hlabel : (((Labels.ofAnalysis a).resolve x.2.start).toList.map (· ++ ":")).filter isIndented
      = [] := by
    cases hname : (Labels.ofAnalysis a).resolve x.2.start with
    | none => rfl
    | some name => simp [Labels.isIndented_of_resolve hname]
  have hlines : ((a.blockInstructions x.2).map
      (instructionLine (Labels.ofAnalysis a).resolve)).filter isIndented
        = (a.blockInstructions x.2).map (instructionLine (Labels.ofAnalysis a).resolve) := by
    refine List.filter_eq_self.mpr fun l hl => ?_
    rcases List.mem_map.mp hl with ⟨e, -, rfl⟩
    exact isIndented_instructionLine _ e
  have hblock : isIndented ("; block " ++ Block.idText x.1 ++ " " ++ x.2.text) = false := by
    simp only [String.append_assoc]
    exact isIndented_comment (by decide) _
  have hblank : isIndented "" = false := by decide
  simp only [blockLines, List.filter_append, hlabel, hlines, List.filter_singleton, hblock, hblank,
    Bool.cond_false, List.nil_append]
  -- Of a block with successors one more line is left, and that is a comment.
  split
  · exact List.append_nil _
  · rw [List.filter_singleton, isIndented_comment (by decide)]
    exact List.append_nil _

/-- The indented lines of a listing are those of the instructions. -/
theorem filter_lines (a : Analysis) : a.lines.filter isIndented
    = a.listed.map (instructionLine (Labels.ofAnalysis a).resolve) := by
  -- All lines but those of instructions are comments, labels or blank.
  have hsummary : isIndented a.summaryLine = false := by
    unfold summaryLine
    simp only [String.append_assoc]
    exact isIndented_comment (by decide) _
  have hreferences := filter_part "; Cross-references" (a.references.toList.map referenceLine)
    (by decide) (by
      simp only [List.forall_mem_map, referenceLine, String.append_assoc]
      exact fun _ _ => isIndented_comment (by decide) _)
  have hprocedures := filter_part "; Procedures"
    (a.procedures.inOrder.map (a.procedureLine (Labels.ofAnalysis a))) (by decide) (by
      simp only [List.forall_mem_map, procedureLine, String.append_assoc]
      exact fun _ _ => isIndented_comment (by decide) _)
  have hdiagnostics := filter_part ("; Diagnostics: " ++ countsText a.diagnostics)
    (a.diagnostics.sorted.map fun d => ";   " ++ d.text) (isIndented_comment (by decide) _) (by
      simp only [List.forall_mem_map]
      exact fun _ _ => isIndented_comment (by decide) _)
  simp only [lines, List.filter_append, hreferences, hprocedures, hdiagnostics, List.append_nil,
    List.filter_singleton, hsummary, Bool.cond_false, List.nil_append, List.filter_flatMap,
    filter_blockLines, listed, List.map_flatMap]

/-- The instructions of a JSON listing stand inside of their blocks. -/
def instructionObjects (a : Analysis) : List JsonValue :=
  (a.json.member "blocks").items.flatMap fun block => (block.member "instructions").items

/-- The lines of instructions in a plain text listing, as it is printed. -/
def instructionLines (a : Analysis) : List String :=
  (textLines ((Disassembly.flow a).textListing)).filter isIndented

/-- The instructions of a JSON listing are those of the blocks, block after block. -/
theorem instructionObjects_eq (a : Analysis) :
    a.instructionObjects = a.listed.map (instructionJson (Labels.ofAnalysis a).resolve) := by
  -- The members are looked up by their names.
  have hblocks : a.json.member "blocks"
      = .array (a.blocks.inOrder.map (a.blockJson (Labels.ofAnalysis a))) := rfl
  have hinstructions : ∀ x, (a.blockJson (Labels.ofAnalysis a) x).member "instructions"
      = .array ((a.blockInstructions x.2).map (instructionJson (Labels.ofAnalysis a).resolve)) :=
    fun _ => rfl
  simp only [instructionObjects, hblocks, JsonValue.items, List.flatMap_map, hinstructions, listed,
    List.map_flatMap]

theorem map_bare_csvRows (a : Analysis) : a.csvRows.map CsvRow.bare
    = a.listed.map (CsvRow.ofInstruction (Labels.ofAnalysis a).resolve) := by
  simp only [csvRows, listed, List.map_flatMap, blockRows, List.map_map]
  rfl

end Analysis

section Lines

theorem oneLine_padRight {s : String} (h : OneLine s) (width : Nat) :
    OneLine (padRight width s) := by
  refine oneLine_append_iff.mpr ⟨h, oneLine_ofList fun hmem => ?_⟩
  exact absurd (List.mem_replicate.mp hmem).2 (by decide)

namespace Labels

theorem oneLine_label {what : String} (h : OneLine what) (x : Address) :
    OneLine (label what x) := by
  simp only [label, oneLine_append_iff, Address.oneLine_wordText, h, and_true, true_and]
  decide

/-- Names are made of words and digits. -/
theorem oneLine_of_resolve {a : Analysis} {x : Address} {name : String}
    (h : (ofAnalysis a).resolve x = some name) : OneLine name := by
  rcases eq_label_of_resolve h with rfl | rfl
  · exact oneLine_label (by decide) x
  · exact oneLine_label (by decide) x

/-- An address without a name is printed as it is. -/
theorem oneLine_nameOf (a : Analysis) (x : Address) : OneLine ((ofAnalysis a).nameOf x) := by
  unfold nameOf
  cases hname : (ofAnalysis a).resolve x with
  | none => exact Address.oneLine_text x
  | some name => exact oneLine_of_resolve hname

end Labels

/-- The line of an instruction quotes no other names than those of the analysis. -/
theorem oneLine_instructionLine (a : Analysis) (x : Address × Instruction) :
    OneLine (instructionLine (Labels.ofAnalysis a).resolve x) := by
  have htext : OneLine (x.2.textAt x.1 (Labels.ofAnalysis a).resolve) :=
    x.2.oneLine_textAt (fun _ _ => Labels.oneLine_of_resolve) x.1
  simp only [instructionLine, oneLine_append_iff, Address.oneLine_text, htext,
    oneLine_padRight (Hex.oneLine_bytes _), and_true]
  decide

/-- All of a diagnostic but its message is a word or an address. -/
theorem Diagnostic.oneLine_text {d : Diagnostic} (h : OneLine d.message) : OneLine d.text := by
  simp only [text, oneLine_append_iff, Address.oneLine_text, Severity.oneLine_name,
    DiagnosticCode.oneLine_name, h, and_true, true_and]
  decide

namespace Analysis

theorem oneLine_referenceLine (r : Reference) : OneLine (referenceLine r) := by
  have hslot : OneLine (if r.slot.isSomewhere then " via " ++ r.slot.text else "") := by
    split
    · exact oneLine_append_iff.mpr ⟨by decide, r.slot.oneLine_text⟩
    · decide
  simp only [referenceLine, oneLine_append_iff, Address.oneLine_text, hslot,
    oneLine_padRight r.kind.oneLine_name, and_true]
  decide

theorem oneLine_procedureLine (a : Analysis) (x : Nat × Procedure) :
    OneLine (a.procedureLine (Labels.ofAnalysis a) x) := by
  have hcallees : ∀ s ∈ (a.calls.callees x.1).filterMap (fun callee =>
      (a.procedures.get? callee).map fun q => (Labels.ofAnalysis a).nameOf q.entry),
      OneLine s := by
    intro s hs
    rcases List.mem_filterMap.mp hs with ⟨callee, -, hcallee⟩
    rcases Option.map_eq_some_iff.mp hcallee with ⟨q, -, rfl⟩
    exact Labels.oneLine_nameOf a q.entry
  simp only [procedureLine, oneLine_append_iff, Labels.oneLine_nameOf, Returns.oneLine_text,
    Nat.toString_eq_repr, oneLine_repr, and_true]
  refine ⟨by decide +kernel, ?_⟩
  split
  · decide
  · exact oneLine_append_iff.mpr ⟨by decide, oneLine_intercalate (by decide) hcallees⟩

/-- The lines of a block: its label, what it is, its instructions and its successors. -/
theorem oneLine_blockLines (a : Analysis) (x : Nat × Block) :
    ∀ l ∈ a.blockLines (Labels.ofAnalysis a) x, OneLine l := by
  have hsuccessors : ∀ s ∈ (a.flow.successors x.1).filterMap (fun next =>
      (a.blocks.get? next).map fun target => (Labels.ofAnalysis a).nameOf target.start),
      OneLine s := by
    intro s hs
    rcases List.mem_filterMap.mp hs with ⟨next, -, hnext⟩
    rcases Option.map_eq_some_iff.mp hnext with ⟨target, -, rfl⟩
    exact Labels.oneLine_nameOf a target.start
  intro l hl
  simp only [blockLines, List.mem_append, List.mem_singleton] at hl
  -- A blank line, the label if there is one, a comment, the instructions, and the successors if
  -- there are any.
  rcases hl with (((rfl | hl) | rfl) | hl) | hl
  · decide
  · rcases List.mem_map.mp hl with ⟨name, hname, rfl⟩
    exact oneLine_append_iff.mpr ⟨Labels.oneLine_of_resolve (Option.mem_toList.mp hname),
      by decide⟩
  · simp only [Block.idText, Block.text, oneLine_append_iff, Address.oneLine_text,
      Address.oneLine_wordText, BlockKind.oneLine_name, Nat.toString_eq_repr, oneLine_repr,
      and_true]
    decide
  · rcases List.mem_map.mp hl with ⟨e, -, rfl⟩
    exact oneLine_instructionLine a e
  · split at hl
    · cases hl
    · rw [List.mem_singleton.mp hl]
      exact oneLine_append_iff.mpr ⟨by decide +kernel, oneLine_intercalate (by decide) hsuccessors⟩

/-- A part is a blank line, a heading and its lines. -/
theorem oneLine_part {heading : String} {lines : List String} (hheading : OneLine heading)
    (hlines : ∀ l ∈ lines, OneLine l) : ∀ l ∈ part heading lines, OneLine l := by
  intro l hl
  unfold part at hl
  split at hl
  · cases hl
  · simp only [List.mem_cons] at hl
    rcases hl with rfl | rfl | hl
    · decide
    · exact hheading
    · exact hlines l hl

theorem oneLine_countsText (ds : Diagnostics) : OneLine (countsText ds) := by
  refine oneLine_intercalate (by decide) fun s hs => ?_
  rcases List.mem_map.mp hs with ⟨severity, -, rfl⟩
  simp only [oneLine_append_iff, Severity.oneLine_name, Nat.toString_eq_repr, oneLine_repr,
    and_true, true_and]
  decide

/-- No line of a listing has a line end inside, if no message has one. -/
theorem oneLine_lines (a : Analysis) (hmessages : ∀ d ∈ a.diagnostics.toList, OneLine d.message) :
    ∀ l ∈ a.lines, OneLine l := by
  intro l hl
  simp only [lines, List.mem_append, List.mem_singleton] at hl
  -- The summary, the blocks, and the three parts behind them.
  rcases hl with (((rfl | hl) | hl) | hl) | hl
  · unfold summaryLine
    simp only [oneLine_append_iff, Nat.toString_eq_repr, oneLine_repr, and_true]
    decide +kernel
  · rcases List.mem_flatMap.mp hl with ⟨x, -, hx⟩
    exact oneLine_blockLines a x l hx
  · refine oneLine_part (by decide +kernel) ?_ l hl
    simp only [List.forall_mem_map]
    exact fun r _ => oneLine_referenceLine r
  · refine oneLine_part (by decide +kernel) ?_ l hl
    simp only [List.forall_mem_map]
    exact fun x _ => oneLine_procedureLine a x
  · refine oneLine_part (oneLine_append_iff.mpr ⟨by decide +kernel, oneLine_countsText _⟩) ?_ l hl
    simp only [List.forall_mem_map]
    intro d hd
    -- Sorting the diagnostics keeps each of them.
    have hmem : d ∈ a.diagnostics.toList := List.mem_mergeSort.mp hd
    exact oneLine_append_iff.mpr ⟨by decide, Diagnostic.oneLine_text (hmessages d hmem)⟩

/-- The indented lines of the text that is printed are those of the instructions. -/
theorem instructionLines_eq (a : Analysis)
    (hmessages : ∀ d ∈ a.diagnostics.toList, OneLine d.message) :
    a.instructionLines = a.listed.map (instructionLine (Labels.ofAnalysis a).resolve) := by
  have hprinted : (Disassembly.flow a).textListing = String.join (a.lines.map (· ++ "\n")) := rfl
  rw [instructionLines, hprinted, textLines_join (a.oneLine_lines hmessages), List.filter_append,
    filter_lines, List.filter_singleton, show isIndented "" = false from by decide, cond_false,
    List.append_nil]

/-- The messages of a finished analysis stay on their lines, wherever they come from. -/
theorem oneLine_messages {image : Image} {context : DecodeContext} {s : Session}
    (hs : Explored image context (fun limits => 1 ≤ limits.blockInstructions) s)
    (buildProcedures : Bool) :
    ∀ d ∈ (ofSession s buildProcedures).diagnostics.toList, OneLine d.message := by
  have hexploring : ∀ d ∈ s.diagnostics.toList, OneLine d.message :=
    hs.finds.oneLine fun d hd => absurd hd List.not_mem_nil
  have hgraph := (FlowGraph.build_finds s.blocks s.references s.diagnostics).oneLine hexploring
  exact (ofSession_finds s buildProcedures).oneLine hgraph

end Analysis

end Lines

/-- What the formats show of the instructions of an analysis. The index lists them by ascending
    address, and each format shows that list, without gaps or repetitions. The plain text is read
    line by line as it is printed; the other two are the trees and the rows. -/
structure Analysis.ListsAll (a : Analysis) : Prop where
  ascending : Ascending a.code.toList
  blocks : a.listed = a.code.toList
  /-- The indented lines that are printed: address, bytes and text. -/
  text : a.instructionLines = a.code.toList.map fun x =>
    "  " ++ x.1.text ++ "  " ++ padRight 20 (Hex.bytes x.2.bytes) ++ " "
      ++ x.2.textAt x.1 (Labels.ofAnalysis a).resolve
  json : a.instructionObjects = a.code.toList.map fun x => .object
    [("address", .string x.1.text), ("size", .number x.2.length),
      ("mnemonic", .string x.2.operation.mnemonic),
      ("text", .string (x.2.textAt x.1 (Labels.ofAnalysis a).resolve)),
      ("bytes", .string (Hex.bytes x.2.bytes))]
  csv : a.csvRows.map CsvRow.bare = a.code.toList.map fun x =>
    { address := x.1.text
      size := x.2.length
      bytes := Hex.bytes x.2.bytes
      instruction := x.2.textAt x.1 (Labels.ofAnalysis a).resolve }

/-- If the blocks list the index and no message is in the way, all formats show the index. -/
theorem Analysis.listsAll_of_listed_eq {a : Analysis} (h : a.listed = a.code.toList)
    (hmessages : ∀ d ∈ a.diagnostics.toList, OneLine d.message) : a.ListsAll where
  ascending := a.code.ascending_toList
  blocks := h
  text := by
    rw [instructionLines_eq a hmessages, h]
    rfl
  json := by
    rw [instructionObjects_eq, h]
    rfl
  csv := by
    rw [map_bare_csvRows, h]
    rfl

/-- All listings of a finished analysis show every instruction once. So the text that is printed
    has as many lines for instructions as there are instructions, and there are as many objects
    and rows for them. -/
theorem analyzeImage_listsAll {image : Image} {context : DecodeContext} {entries : List Address}
    {options : AnalysisOptions} {cancelled : Nat → Bool} {analysis : Analysis}
    (hlimit : 1 ≤ options.limits.blockInstructions)
    (h : analyzeImage image context entries options cancelled = .ok analysis) :
    let d := Disassembly.flow analysis
    analysis.ListsAll
      ∧ ((textLines (d.textListing)).filter isIndented).length = d.instructionCount
      ∧ analysis.instructionObjects.length = d.instructionCount
      ∧ analysis.csvRows.length = d.instructionCount := by
  rcases exists_session_of_analyzeImage hlimit h with ⟨s, hs, -, rfl⟩
  have hall := Analysis.listsAll_of_listed_eq (a := .ofSession s options.buildProcedures)
    hs.laidOut.flatMap_inRange (Analysis.oneLine_messages hs options.buildProcedures)
  refine ⟨hall, ?_, ?_, ?_⟩
  · refine (congrArg List.length hall.text).trans ?_
    rw [List.length_map]
    exact CodeIndex.length_toList _
  · rw [hall.json, List.length_map]
    exact CodeIndex.length_toList _
  · rw [← List.length_map CsvRow.bare, hall.csv, List.length_map]
    exact CodeIndex.length_toList _

/-- The block of a jump back is cut in two, and its three instructions are printed still. -/
theorem analyzeImage_listsAll_jumpBack :
    ∃ analysis, analyzeImage jumpBack {} [] {} (fun _ => false) = .ok analysis
      ∧ analysis.blocks.size = 2
      ∧ (textLines ((Disassembly.flow analysis).textListing)).filter isIndented
        = ["  0000:0000  90                   nop", "  0000:0001  90                   nop",
          "  0000:0002  eb fd                jmp loc_0000_0001"]
      ∧ analysis.instructionObjects.length = 3 ∧ analysis.csvRows.length = 3 := by
  -- The lines are computed from the index, which is what the theorem says is printed.
  have hfound : (analyzeImage jumpBack {} [] {} (fun _ => false)).toOption.any
      (fun analysis => analysis.blocks.size = 2 ∧ analysis.code.size = 3
        ∧ analysis.code.toList.map (instructionLine (Labels.ofAnalysis analysis).resolve)
          = ["  0000:0000  90                   nop", "  0000:0001  90                   nop",
            "  0000:0002  eb fd                jmp loc_0000_0001"]) := by
    decide +kernel
  rcases exists_ok_of_any hfound with ⟨analysis, h, hany⟩
  rcases of_decide_eq_true hany with ⟨hblocks, hcode, hlines⟩
  rcases analyzeImage_listsAll (by decide) h with ⟨hall, -, hobjects, hrows⟩
  exact ⟨analysis, h, hblocks, hall.text.trans hlines, hobjects.trans hcode, hrows.trans hcode⟩

end Disasm86
