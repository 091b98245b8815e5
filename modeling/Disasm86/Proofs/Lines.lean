import Disasm86.Decode.Reader
import Disasm86.Graph.Procedure
import Disasm86.Instruction.Printer
import Disasm86.Proofs.HexText

/-!
# Every Text Stays on Its Line

A listing is put together from lines, but what is printed is one text, and whoever reads it takes
it apart at the line ends. The two agree only if no line has a line end inside of it. Most of a
line comes from somewhere else: the text of an address or of an instruction, a name, the message
of a diagnostic. `OneLine` is what all of them have in common.

There is one lemma for each function that makes a text, and it uses those about the texts inside
of it. They are simplification lemmas, so that the line of a listing is dealt with by unfolding
what it is made of; the words in between are decided.

## Main definitions

* `OneLine`: A text without a line end.
* `textLines`: What stands between the line ends of a text.

## Theorems

* `oneLine_append_iff`: Texts can be joined in a line.
* `textLines_join`: Lines that are joined with their line ends are the lines of the outcome.
* `Instruction.oneLine_render`: An instruction is printed on one line.
* `Instruction.oneLine_of_text`, `DecodeError.oneLine_message`: What messages quote.
-/

namespace Disasm86

/-- A text without a line end. Whatever is printed into a line has to be of this kind for the lines
    of a listing to be told apart again. -/
def OneLine (s : String) : Prop := '\n' ∉ s.toList

instance (s : String) : Decidable (OneLine s) := inferInstanceAs (Decidable ('\n' ∉ s.toList))

/-- What stands between the line ends of a text. If the text ends in a line end, the last of them is
    empty. -/
def textLines (s : String) : List String := (s.toList.splitOn '\n').map String.ofList

/-- Texts can be joined in a line, and a line can be looked at in its parts. -/
@[simp] theorem oneLine_append_iff {s t : String} : OneLine (s ++ t) ↔ OneLine s ∧ OneLine t := by
  simp only [OneLine, String.toList_append, List.mem_append, not_or]

theorem oneLine_ofList {cs : List Char} (h : '\n' ∉ cs) : OneLine (String.ofList cs) := by
  rw [OneLine, String.toList_ofList]
  exact h

/-- Texts with a separator between them, by induction on the texts. -/
theorem oneLine_intercalate {sep : String} {ss : List String} (hsep : OneLine sep)
    (h : ∀ s ∈ ss, OneLine s) : OneLine (sep.intercalate ss) := by
  rw [OneLine, String.toList_intercalate]
  induction ss with
  | nil => exact List.not_mem_nil
  | cons s ss ih =>
      have hs : '\n' ∉ s.toList := h s List.mem_cons_self
      have hrest := ih fun t ht => h t (List.mem_cons_of_mem s ht)
      -- Only between two texts there is a separator.
      cases ss with
      | nil =>
          rw [List.map_singleton, List.intercalate_singleton]
          exact hs
      | cons t ss =>
          rw [List.map_cons, List.map_cons, List.intercalate_cons_cons, ← List.map_cons]
          simp only [List.mem_append, not_or]
          exact ⟨⟨hs, hsep⟩, hrest⟩

/-- Lines that are joined with their line ends are the lines of the outcome, if none of them has a
    line end of its own. So what is printed can be read back line by line. -/
theorem textLines_join {lines : List String} (h : ∀ l ∈ lines, OneLine l) :
    textLines (String.join (lines.map (· ++ "\n"))) = lines ++ [""] := by
  rw [textLines, String.toList_join]
  induction lines with
  | nil =>
      rw [List.map_nil, List.flatMap_nil, List.splitOn_nil]
      rfl
  | cons l lines ih =>
      have hline : '\n' ∉ l.toList := h l List.mem_cons_self
      rw [List.map_cons, List.flatMap_cons, String.toList_append, List.append_assoc]
      -- The first line end of the text is the one behind `l`, since `l` has none itself.
      rw [show "\n".toList = ['\n'] from rfl, List.singleton_append,
        List.splitOn_append_cons_self_of_not_mem hline, List.map_cons, String.ofList_toList,
        ih fun l' hl' => h l' (List.mem_cons_of_mem l hl'), List.cons_append]

section Numbers

namespace Hex

/-- No digit is a line end, since each of them has a value. -/
theorem notMem_digits {c : Char} (hc : value? c.toUpper = none) (width n : Nat) (hzero : c ≠ '0') :
    c ∉ digits width n := by
  intro h
  rw [digits, List.leftpad, List.mem_append] at h
  rcases h with h | h
  · exact hzero (List.mem_replicate.mp h).2
  · have hvalue := (valueOf_map_toDigits n).2 c.toUpper (List.mem_map_of_mem h)
    rw [hc] at hvalue
    cases hvalue

/-- Numbers are printed by digits, with a mark in front of them in this case. -/
@[simp] theorem oneLine_literal (width n : Nat) : OneLine (literal width n) := by
  refine oneLine_append_iff.mpr ⟨by decide, oneLine_ofList ?_⟩
  exact notMem_digits (by decide) width n (by decide)

/-- Bytes are printed two digits each, with blanks in between. -/
@[simp] theorem oneLine_bytes (bs : List UInt8) : OneLine (bytes bs) := by
  refine oneLine_intercalate (by decide) fun s hs => ?_
  rcases List.mem_map.mp hs with ⟨b, -, rfl⟩
  exact oneLine_ofList (notMem_digits (by decide) 2 b.toNat (by decide))

end Hex

@[simp] theorem oneLine_repr (n : Nat) : OneLine n.repr := by
  rw [← Nat.toString_eq_repr, Nat.toString_eq_ofList_toDigits]
  refine oneLine_ofList fun h => ?_
  have hdigit := Nat.isDigit_of_mem_toDigits (by decide) (by decide) h
  exact absurd hdigit (by decide)

@[simp] theorem Address.oneLine_wordText (w : Int32) : OneLine (wordText w) :=
  notMem_wordText (by decide) w

/-- Addresses, and the text that stands for none. -/
@[simp] theorem Address.oneLine_text (a : Address) : OneLine a.text := by
  unfold text
  split
  · simp +decide
  · decide

end Numbers

section Names

-- Each of these is a table of words, and the words are decided one by one.

@[simp] theorem OperandSize.oneLine_keyword (size : OperandSize) : OneLine size.keyword := by
  cases size <;> decide

@[simp] theorem SegmentRegister.oneLine_text (r : SegmentRegister) : OneLine r.text := by
  cases r <;> decide

@[simp] theorem Register.oneLine_text (r : Register) : OneLine r.text := by
  have hbyte : ∀ n, OneLine (byteNames.get n) := by decide
  have hword : ∀ n, OneLine (wordNames.get n) := by decide
  cases r with
  | byte n => exact hbyte n
  | word n => exact hword n
  | dword n => exact oneLine_append_iff.mpr ⟨by decide, hword n⟩
  | segment r => exact r.oneLine_text
  | stack n => simp +decide [text]

@[simp] theorem Operation.oneLine_mnemonic (operation : Operation) :
    OneLine operation.mnemonic := by
  cases operation with
  | arithmetic op => cases op <;> decide
  | shift op => cases op <;> decide
  | jumpIf c => cases c <;> decide
  | coprocessor op => cases op <;> decide
  | _ => decide

@[simp] theorem ReferenceKind.oneLine_name (kind : ReferenceKind) : OneLine kind.name := by
  cases kind with
  | transfer t => cases t <;> decide
  | _ => decide

@[simp] theorem BlockKind.oneLine_name (kind : BlockKind) : OneLine kind.name := by
  cases kind <;> decide

@[simp] theorem Severity.oneLine_name (severity : Severity) : OneLine severity.name := by
  cases severity <;> decide

@[simp] theorem DiagnosticCode.oneLine_name (code : DiagnosticCode) : OneLine code.name := by
  cases code <;> decide

@[simp] theorem Returns.oneLine_text (r : Returns) : OneLine r.text := by
  rcases r with ⟨_ | _, _ | _, _ | _⟩ <;> decide

end Names

section Instructions

@[simp] theorem oneLine_displacementText (d : Int32) : OneLine (displacementText d) := by
  unfold displacementText
  split
  · decide
  · split <;> simp +decide

@[simp] theorem oneLine_distanceText (d : Int) : OneLine (distanceText d) := by
  unfold distanceText
  split <;> simp +decide

/-- An operand in memory: its size and segment, if they are printed, and what is in brackets. -/
@[simp] theorem MemoryOperand.oneLine_text (m : MemoryOperand) : OneLine m.text := by
  have hsize : OneLine (m.size.elim "" fun s => s.keyword ++ " ptr ") := by
    cases m.size <;> simp +decide
  have hsegment : OneLine (m.segmentOverride.elim "" fun r => r.text ++ ":") := by
    cases m.segmentOverride <;> simp +decide
  have hregisters : OneLine ("+".intercalate
      ((m.base.toList ++ m.index.toList).map Register.text)) := by
    refine oneLine_intercalate (by decide) fun s hs => ?_
    rcases List.mem_map.mp hs with ⟨r, -, rfl⟩
    exact r.oneLine_text
  have hscale : OneLine (if 1 < m.scale then "*" ++ toString m.scale else "") := by
    split <;> simp +decide
  unfold text
  simp only [oneLine_append_iff]
  refine ⟨⟨⟨⟨hsize, hsegment⟩, by decide⟩, ?_⟩, by decide⟩
  split
  · exact Hex.oneLine_literal _ _
  · simp only [oneLine_append_iff]
    exact ⟨⟨hregisters, hscale⟩, oneLine_displacementText _⟩

variable {target : Int32 → String}

/-- Only a relative operand is printed by `target`, and all others are printed by themselves. -/
theorem Instruction.oneLine_operandText (htarget : ∀ d, OneLine (target d)) (x : Operand) :
    OneLine (operandText target x) := by
  cases x with
  | relative d size f => exact htarget d
  | _ => simp +decide [operandText]

/-- An instruction is printed on one line, if its targets are. -/
theorem Instruction.oneLine_render (htarget : ∀ d, OneLine (target d)) (i : Instruction) :
    OneLine (i.render target) := by
  have hrepeat : OneLine i.prefixes.repeatText := by
    unfold Prefixes.repeatText
    split <;> decide
  have hsegment : OneLine i.prefixes.segmentText := by
    unfold Prefixes.segmentText
    cases i.prefixes.segment <;> simp +decide
  have hoperands : OneLine (", ".intercalate (i.operands.map (operandText target))) := by
    refine oneLine_intercalate (by decide) fun s hs => ?_
    rcases List.mem_map.mp hs with ⟨x, -, rfl⟩
    exact oneLine_operandText htarget x
  -- Prefixes, mnemonic and operands are printed one behind the other.
  unfold render
  simp only [oneLine_append_iff]
  refine ⟨⟨⟨hrepeat, ?_⟩, i.operation.oneLine_mnemonic⟩, ?_⟩
  · split
    · decide
    · exact hsegment
  · split
    · decide
    · exact oneLine_append_iff.mpr ⟨by decide, hoperands⟩

/-- An instruction without an address. -/
theorem Instruction.oneLine_of_text {i : Instruction} {text : String} (h : i.text = .ok text) :
    OneLine text := by
  unfold Instruction.text at h
  split at h
  · cases h
  · cases h
    exact i.oneLine_render fun _ => oneLine_distanceText _

/-- An instruction at its address, if the names that it may quote are on one line. -/
theorem Instruction.oneLine_textAt {names : Naming} (hnames : ∀ a name, names a = some name →
    OneLine name) (i : Instruction) (a : Address) : OneLine (i.textAt a names) := by
  refine i.oneLine_render fun d => ?_
  cases hname : names ((i.next a).offsetBy d) with
  | none => simp [hname]
  | some name => simpa [hname] using hnames _ name hname

/-- Why an instruction cannot be decoded, and for most reasons the byte at fault. -/
@[simp] theorem DecodeError.oneLine_message (e : DecodeError) : OneLine e.message := by
  cases e with
  | truncated => decide +kernel
  | unsupportedAddressSize => decide +kernel
  | _ => exact oneLine_append_iff.mpr ⟨by decide +kernel, Hex.oneLine_literal _ _⟩

end Instructions

end Disasm86
