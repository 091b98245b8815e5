import Disasm86.Explore.Session
import Disasm86.Proofs.Marking
import Disasm86.Proofs.Window

/-!
# Runs of Instructions

Instructions that stand one behind the other. A run is a list of instructions and the
address of the first; the addresses of the others follow from the lengths, so there
is nothing about a run that could be inconsistent.

The same run is looked at in two ways. The image has a run if decoding at each of its
addresses gives the instruction there, and a session has it if its index does. `IsRun`
takes the look-up as a parameter and serves both.

`Session.takeRun` is what decoding does with a run: every instruction is marked and
indexed before the next is looked at. The lemmas here say what that comes to. Outside
the bytes of the run nothing changes, inside them every byte is code, and the index
has the run. How the run lies in the byte map, with one lead for each instruction, is
not said here; that is an invariant of sessions and is proved instruction by
instruction.

## Main definitions

* `IsRun`: A look-up finds instructions one behind the other.
* `Run.stop`, `Run.size`: The address behind a run, and its number of bytes.
* `Session.take`, `Session.takeRun`: A session that takes over instructions.

## Theorems

* `isRun_append`: A run in two parts.
* `Run.toInt_stop`: The end of a run of an image.
* `Run.spans_cons_iff`: The bytes of a run are those of its instructions.
* `Run.spans_last`: The last instruction starts inside the run.
* `takeRun_eq`: Taking over a run touches the byte map and the index only.
* `takeRun_get_outside`, `takeRun_kind_inside`: The byte map behind a run.
* `takeRun_get?_outside`, `isRun_takeRun`: The index behind a run.
-/

namespace Disasm86

/-- A look-up finds the instructions one behind the other, the first at `start`. -/
def IsRun (find : Address → Option Instruction) (start : Address) : List Instruction → Prop
  | [] => True
  | i :: is => find start = some i ∧ IsRun find (i.next start) is

namespace Run

/-- The address behind instructions that stand one behind the other. -/
def stop (start : Address) : List Instruction → Address
  | [] => start
  | i :: is => stop (i.next start) is

/-- The number of bytes of instructions. -/
def size : List Instruction → Nat
  | [] => 0
  | i :: is => i.length + size is

@[simp] theorem stop_segment (start : Address) (is : List Instruction) :
    (stop start is).segment = start.segment := by
  induction is generalizing start with
  | nil => rfl
  | cons i is ih => rw [stop, ih]; rfl

/-- Behind the first part the second one starts. -/
theorem stop_append (start : Address) (is js : List Instruction) :
    stop start (is ++ js) = stop (stop start is) js := by
  induction is generalizing start with
  | nil => rfl
  | cons i is ih => exact ih (i.next start)

theorem size_append (is js : List Instruction) : size (is ++ js) = size is + size js := by
  induction is with
  | nil => simp only [List.nil_append, size, Nat.zero_add]
  | cons i is ih => simp only [List.cons_append, size, ih, Nat.add_assoc]

end Run

/-- A run can be parted anywhere, and the second part starts where the first one stops. -/
theorem isRun_append {find : Address → Option Instruction} {start : Address}
    {is js : List Instruction} :
    IsRun find start (is ++ js) ↔ IsRun find start is ∧ IsRun find (Run.stop start is) js := by
  induction is generalizing start with
  | nil => simp only [List.nil_append, IsRun, Run.stop, true_and]
  | cons i is ih => simp only [List.cons_append, IsRun, Run.stop, ih, and_assoc]

/-- A look-up that finds more still finds the run. -/
theorem IsRun.imp {find find' : Address → Option Instruction} {start : Address}
    {is : List Instruction} (h : IsRun find start is)
    (himp : ∀ a i, find a = some i → find' a = some i) : IsRun find' start is := by
  induction is generalizing start with
  | nil => trivial
  | cons i is ih => exact ⟨himp _ _ h.1, ih h.2⟩

section ImageRun

variable {image : Image} {context : DecodeContext} {start : Address} {i : Instruction}
  {is : List Instruction}

/-- The end of a run of an image, as a number. -/
theorem Run.toInt_stop (h : IsRun (image.instructionAt? context) start is) :
    (Run.stop start is).offset.toInt = start.offset.toInt + Run.size is := by
  induction is generalizing start with
  | nil => simp only [Run.stop, Run.size, Int.natCast_zero, Int.add_zero]
  | cons i is ih =>
      rw [Run.stop, ih h.2, Image.toInt_next h.1, Run.size]
      omega

/-- A run of an image lies inside the offsets of its segment. -/
theorem Run.bounds (h : IsRun (image.instructionAt? context) start is) (hne : is ≠ []) :
    0 ≤ start.offset.toInt ∧ start.offset.toInt + Run.size is ≤ 65536 ∧ 0 < Run.size is := by
  induction is generalizing start with
  | nil => exact absurd rfl hne
  | cons i is ih =>
      rcases Image.instructionAt?_eq_some h.1 with ⟨hpos, h0, hend, -⟩
      have hnext := Image.toInt_next h.1
      -- The last instruction ends inside the segment; the others end where one starts.
      cases is with
      | nil =>
          simp only [Run.size]
          omega
      | cons j js =>
          rcases ih h.2 (List.cons_ne_nil j js) with ⟨-, hrest, -⟩
          rw [Run.size]
          omega

/-- The bytes of a run are those of its first instruction and those of the others. -/
theorem Run.spans_cons_iff {a : Address} (h : image.instructionAt? context start = some i) :
    start.Spans (Run.size (i :: is)) a ↔
      start.Spans i.length a ∨ (i.next start).Spans (Run.size is) a := by
  rcases Image.instructionAt?_eq_some h with ⟨-, h0, hend, -⟩
  exact Address.spans_add_iff h0 (by omega)

/-- The instructions behind the first one have none of its bytes, because offsets do not wrap around
    in an image. -/
theorem Run.not_spans_first {a : Address} (h : image.instructionAt? context start = some i)
    (ha : (i.next start).Spans (Run.size is) a) : ¬ start.Spans i.length a := by
  have hnext := Image.toInt_next h
  intro hc
  have h1 := ha.2.1
  have h2 := hc.2.2
  omega

/-- The last instruction of a run starts inside the run. -/
theorem Run.spans_last (h : IsRun (image.instructionAt? context) start (is ++ [i])) :
    start.Spans (Run.size (is ++ [i])) (Run.stop start is) := by
  rcases isRun_append.mp h with ⟨hfront, hlast⟩
  have hpos := (Image.instructionAt?_eq_some hlast.1).1
  have hstop := Run.toInt_stop hfront
  rw [Run.size_append]
  simp only [Run.size, Nat.add_zero]
  exact ⟨Run.stop_segment start is, by omega, by omega⟩

end ImageRun

theorem CodeIndex.get?_insert (x : CodeIndex) (a b : Address) (i : Instruction) :
    (x.insert a i).get? b = if b = a then some i else x.get? b :=
  getElem?_insert_ite x.instructions a b i

namespace Session

/-- Takes an instruction over: its bytes become code, and the index leads to it. -/
def take (s : Session) (a : Address) (i : Instruction) : Session :=
  { s with bytes := s.bytes.put a .code i.length, code := s.code.insert a i }

/-- Takes instructions over that stand one behind the other. -/
def takeRun (s : Session) (start : Address) : List Instruction → Session
  | [] => s
  | i :: is => (s.take start i).takeRun (i.next start) is

variable {image : Image} {context : DecodeContext} {start a : Address} {i : Instruction}
  {is : List Instruction}

/-- Taking over a run changes no other part of the session. -/
theorem takeRun_eq (s : Session) (start : Address) (is : List Instruction) :
    s.takeRun start is = { s with
      bytes := (s.takeRun start is).bytes, code := (s.takeRun start is).code } := by
  induction is generalizing s start with
  | nil => rfl
  | cons i is ih => exact ih (s.take start i) (i.next start)

/-- What is known of the bytes after an instruction has been taken over. -/
theorem take_get (s : Session) (h : image.instructionAt? context start = some i) (a : Address) :
    (s.take start i).bytes.get a
      = if start.Spans i.length a then ⟨.code, a = start⟩ else s.bytes.get a := by
  rcases Image.instructionAt?_eq_some h with ⟨-, h0, hend, -⟩
  exact ByteMap.get_put _ _ _ _ _ h0 (by omega)

/-- Bytes that do not belong to the run keep their marks, by induction on the run. -/
theorem takeRun_get_outside (s : Session) (h : IsRun (image.instructionAt? context) start is)
    (ha : ¬ start.Spans (Run.size is) a) :
    (s.takeRun start is).bytes.get a = s.bytes.get a := by
  induction is generalizing s start with
  | nil => rfl
  | cons i is ih =>
      rw [Run.spans_cons_iff h.1] at ha
      rw [takeRun, ih _ h.2 (fun hc => ha (Or.inr hc)), take_get s h.1,
        if_neg (fun hc => ha (Or.inl hc))]

/-- All bytes of the run are code afterwards. -/
theorem takeRun_kind_inside (s : Session) (h : IsRun (image.instructionAt? context) start is)
    (ha : start.Spans (Run.size is) a) : ((s.takeRun start is).bytes.get a).kind = .code := by
  induction is generalizing s start with
  | nil => exact absurd ha (Address.not_spans_zero start a)
  | cons i is ih =>
      rw [takeRun]
      by_cases hrest : (i.next start).Spans (Run.size is) a
      · exact ih _ h.2 hrest
      · -- The byte is one of the first instruction, and the others leave it alone.
        have hfirst := ((Run.spans_cons_iff h.1).mp ha).resolve_right hrest
        rw [takeRun_get_outside _ h.2 hrest, take_get s h.1, if_pos hfirst]

/-- The index is left alone outside of the run. -/
theorem takeRun_get?_outside (s : Session) (h : IsRun (image.instructionAt? context) start is)
    (ha : ¬ start.Spans (Run.size is) a) :
    (s.takeRun start is).code.get? a = s.code.get? a := by
  induction is generalizing s start with
  | nil => rfl
  | cons i is ih =>
      rw [Run.spans_cons_iff h.1] at ha
      have hne : a ≠ start := by
        intro heq
        rw [heq] at ha
        exact ha (Or.inl (Address.spans_self (Image.instructionAt?_eq_some h.1).1))
      rw [takeRun, ih _ h.2 (fun hc => ha (Or.inr hc)), take, CodeIndex.get?_insert, if_neg hne]

/-- The index has the run that was taken over. -/
theorem isRun_takeRun (s : Session) (h : IsRun (image.instructionAt? context) start is) :
    IsRun (s.takeRun start is).code.get? start is := by
  induction is generalizing s start with
  | nil => trivial
  | cons i is ih =>
      refine ⟨?_, ih (s.take start i) h.2⟩
      have hfirst : start.Spans i.length start :=
        Address.spans_self (Image.instructionAt?_eq_some h.1).1
      -- The rest of the run lies behind `start`, so it does not replace the first instruction.
      have hout : ¬ (i.next start).Spans (Run.size is) start :=
        fun hc => Run.not_spans_first h.1 hc hfirst
      rw [takeRun, takeRun_get?_outside _ h.2 hout, take, CodeIndex.get?_insert, if_pos rfl]

end Session

end Disasm86
