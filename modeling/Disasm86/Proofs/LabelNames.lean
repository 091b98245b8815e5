import Disasm86.Proofs.HexText
import Disasm86.Proofs.History
import Disasm86.Proofs.Labels
import Disasm86.Proofs.Procedures
import Mathlib.Data.List.Basic

/-!
# Labels Tell Addresses Apart

An address has a label exactly if a block starts there, and no two addresses have the same label.

Labels are made by going through the indexes of the blocks and of the procedures. So what has a
label is what the indexes lead to, and the first half of the argument is that they lead to
everything: an update of a store enters each start that it makes. This needs no bound on the length
of a block. A block that reaches past the last offset may be accepted although it overlaps another
one, and the index may then lead to one of two blocks with the same start, but it still leads to a
block that starts there. A procedure is only made at the start of a block, so it has no label that
the block would not have.

The second half is about the text. A label ends with the two words of its address, and an underscore
is no digit, so it divides the words wherever it stands and each of them can be read back.

## Main definitions

* `LeadsTo`: An index of entries by their keys.
* `Analysis.StartsAt`, `Analysis.EnteredAt`: A block or a procedure begins at an address.
* `Labels.Unambiguous`: Labels are told by what begins at an address, and tell the address.

## Theorems

* `LeadsTo.mem_keys_iff`: Going through an index lists the keys of all entries.
* `BlockStore.leadsTo_ofHistory`: The starts of blocks are indexed after any history.
* `Labels.label_inj`: The text of a label gives its address.
* `Labels.resolve_eq_some_iff`: The label of an address, by what begins there.
* `Labels.unambiguous_ofSession`: The labels of the analysis of a session are unambiguous.
-/

namespace Disasm86

section Keys

variable {α : Type} {index : Std.TreeMap Address Nat} {get? : Nat → Option α} {key : α → Address}
  {x : Address}

/-- An index by address leads to entries that have the address for a key, and it has the key of
    every entry. The starts of blocks and the entries of procedures are both indexed in this way, so
    what is said of names is proved once. -/
structure LeadsTo (index : Std.TreeMap Address Nat) (get? : Nat → Option α) (key : α → Address) :
    Prop where
  leads : ∀ {a id}, index[a]? = some id → ∃ v, get? id = some v ∧ key v = a
  listed : ∀ {id v}, get? id = some v → ∃ id', index[key v]? = some id'

/-- Going through the index lists the keys of all entries. -/
theorem LeadsTo.mem_keys_iff (h : LeadsTo index get? key) :
    x ∈ (index.values.filterMap fun id => (get? id).map (id, ·)).map (fun e => key e.2)
      ↔ ∃ id v, get? id = some v ∧ key v = x := by
  simp only [List.mem_map, List.mem_filterMap, Option.map_eq_some_iff]
  constructor
  · rintro ⟨e, ⟨id, -, v, hget, rfl⟩, hkey⟩
    exact ⟨id, v, hget, hkey⟩
  · rintro ⟨id, v, hget, rfl⟩
    -- The index may lead to another entry with the same key.
    rcases h.listed hget with ⟨id', hindex⟩
    rcases h.leads hindex with ⟨v', hget', hkey⟩
    refine ⟨(id', v'), ⟨id', ?_, v', hget', rfl⟩, hkey⟩
    rw [values_eq_map_toList]
    exact List.mem_map.mpr ⟨_, Std.TreeMap.mem_toList_iff_getElem?_eq_some.mpr hindex, rfl⟩

end Keys

namespace BlockStore

variable {s s' : BlockStore} {a : Address}

/-- What is cut is a block of the store, and the two parts take its place. -/
theorem exists_cut_of_split {id n : Nat} (h : s.split a = .ok (s', id, n)) :
    ∃ whole, s.get? id = some whole ∧ s' = s.cut id whole a := by
  unfold split at h
  cases hfind : s.find? a with
  | none => simp only [hfind, reduceCtorEq] at h
  | some found =>
      cases hget : s.get? found with
      | none => simp only [hfind, hget, reduceCtorEq] at h
      | some whole =>
          simp only [hfind, hget] at h
          split at h
          · cases h
          · cases h
            exact ⟨whole, hget, rfl⟩

/-- A new block is entered into the index under its start. The other blocks keep their starts,
    though one of them may have lost its rear part. -/
theorem leadsTo_insert {blocks : Array Block} {c : Address}
    (h : LeadsTo s.starts s.get? Block.start)
    (hstarts : ∀ {a j}, (∃ b, blocks[j]? = some b ∧ b.start = a) ↔
      j = s.size ∧ a = c ∨ ∃ b, s.get? j = some b ∧ b.start = a) :
    LeadsTo (s.starts.insert c s.size) (fun id => blocks[id]?) Block.start where
  leads := by
    intro a id hindex
    -- Under the new start the index leads to the new block, and elsewhere it is as before.
    rw [getElem?_insert_ite] at hindex
    split at hindex
    · -- The entry is the new one, and so is the block.
      rename_i ha
      cases hindex
      exact hstarts.mpr (Or.inl ⟨rfl, ha⟩)
    · exact hstarts.mpr (Or.inr (h.leads hindex))
  listed := by
    intro id b hget
    rw [getElem?_insert_ite]
    split
    · exact ⟨_, rfl⟩
    · -- The new block is entered under another start, so this is one of the others.
      rename_i hne
      rcases hstarts.mp ⟨b, hget, rfl⟩ with ⟨-, heq⟩ | ⟨b', hold, hsame⟩
      · exact absurd heq hne
      · rw [← hsame]
        exact h.listed hold

/-- An update keeps the starts indexed. -/
theorem leadsTo_after (h : LeadsTo s.starts s.get? Block.start) (u : Update) :
    LeadsTo (s.after u).starts (s.after u).get? Block.start := by
  cases u with
  | add b =>
      -- A refused block leaves the store as it was, and any other one is entered under its start.
      cases hrefusal : s.refusal? b with
      | some cause =>
          simp only [after, add, hrefusal]
          exact h
      | none =>
          simp only [after, add, hrefusal]
          exact leadsTo_insert h exists_start_push
  | split a =>
      cases hsplit : s.split a with
      | error cause =>
          simp only [after, hsplit]
          exact h
      | ok result =>
          rcases result with ⟨s', id, n⟩
          simp only [after, hsplit]
          rcases exists_cut_of_split hsplit with ⟨whole, hget, rfl⟩
          exact leadsTo_insert h (exists_start_cut hget)

/-- So they stay indexed through any number of updates. -/
theorem leadsTo_foldl_after (updates : List Update) (h : LeadsTo s.starts s.get? Block.start) :
    LeadsTo (updates.foldl after s).starts (updates.foldl after s).get? Block.start := by
  induction updates generalizing s with
  | nil => exact h
  | cons u updates ih => exact ih (leadsTo_after h u)

/-- The starts of blocks are indexed, whatever has been done to a store. -/
theorem leadsTo_ofHistory (updates : List Update) :
    LeadsTo (ofHistory updates).starts (ofHistory updates).get? Block.start := by
  refine leadsTo_foldl_after updates ⟨fun {a id} h => ?_, fun {id b} h => ?_⟩
  · cases Std.TreeMap.getElem?_emptyc.symm.trans h
  · cases Array.getElem?_empty.symm.trans h

end BlockStore

/-- The entry points of procedures are indexed. -/
theorem ProcedureTable.Derived.leadsTo {blocks : BlockStore} {code : CodeIndex} {g : FlowGraph}
    {t : ProcedureTable} (h : Derived blocks code g t) :
    LeadsTo t.byEntry t.get? Procedure.entry :=
  ⟨fun hindex => h.at?_iff.mp hindex, fun hget => ⟨_, h.at?_iff.mpr ⟨_, hget, rfl⟩⟩⟩

namespace Analysis

/-- A block starts at an address. -/
def StartsAt (a : Analysis) (x : Address) : Prop := ∃ id b, a.blocks.get? id = some b ∧ b.start = x

/-- A procedure is entered at an address. -/
def EnteredAt (a : Analysis) (x : Address) : Prop :=
  ∃ n p, a.procedures.get? n = some p ∧ p.entry = x

/-- The procedures of an analysis are derived from its blocks. There are none if they are not
    wanted. -/
theorem derived_ofSession (s : Session) (buildProcedures : Bool) :
    ProcedureTable.Derived s.blocks s.code (ofSession s buildProcedures).flow
      (ofSession s buildProcedures).procedures := by
  cases buildProcedures with
  | false => exact ProcedureTable.derived_empty
  | true => exact ProcedureTable.derived_detect

end Analysis

namespace Labels

variable {what : String} {x y : Address} {name : String}

theorem toList_label (what : String) (x : Address) : (label what x).toList
    = what.toList ++ '_' :: ((Address.wordText x.segment).toList
      ++ '_' :: (Address.wordText x.offset).toList) := by
  have hunderscore : "_".toList = ['_'] := by decide
  simp only [label, String.toList_append, List.append_assoc, hunderscore, List.cons_append,
    List.nil_append]

/-- The text of a label gives its address. -/
theorem label_inj (h : label what x = label what y) : x = y := by
  have hlists := congrArg String.toList h
  rw [toList_label, toList_label] at hlists
  have hwords := List.tail_eq_of_cons_eq (List.append_cancel_left hlists)
  -- No word has an underscore, so the one between them stands where the words meet.
  have hdigit : Hex.value? '_' = none := by decide
  rw [List.append_cons_inj_of_notMem (Address.notMem_wordText hdigit _)
    (Address.notMem_wordText hdigit _)] at hwords
  have hsegment := Address.wordText_injective (String.toList_injective hwords.1)
  have hoffset := Address.wordText_injective (String.toList_injective hwords.2.2)
  exact Address.eq_of_offset_eq hsegment (congrArg Int32.toInt hoffset)

example : label "loc" ⟨-1, 0x12345⟩ = "loc_FFFFFFFF_12345" := by decide +kernel

/-- A label begins with what it is the label of. -/
theorem exists_label_eq (what : String) (x : Address) :
    ∃ rest, label what x = what ++ "_" ++ rest :=
  ⟨Address.wordText x.segment ++ "_" ++ Address.wordText x.offset, by
    simp only [label, String.append_assoc]⟩

/-- The words of labels begin with different letters. -/
theorem proc_append_ne_loc_append (s t : String) : "proc_" ++ s ≠ "loc_" ++ t := by
  intro h
  have hlists := congrArg String.toList h
  rw [String.toList_append, String.toList_append] at hlists
  cases (List.cons.inj hlists).1

section Resolve

variable {a : Analysis} {code : CodeIndex} {g : FlowGraph}

/-- The label of an address, by what is entered or starts there. -/
theorem resolve_eq_some_iff (hblocks : LeadsTo a.blocks.starts a.blocks.get? Block.start)
    (hderived : ProcedureTable.Derived a.blocks code g a.procedures) :
    (ofAnalysis a).resolve x = some name ↔ a.StartsAt x
      ∧ (a.EnteredAt x ∧ name = label "proc" x ∨ ¬ a.EnteredAt x ∧ name = label "loc" x) := by
  have hstarts : x ∈ a.blocks.inOrder.map (·.2.start) ↔ a.StartsAt x := hblocks.mem_keys_iff
  have hentries : x ∈ a.procedures.inOrder.map (·.2.entry) ↔ a.EnteredAt x :=
    hderived.leadsTo.mem_keys_iff
  -- A procedure is only made where a block starts.
  have hsub : a.EnteredAt x → a.StartsAt x := by
    rintro ⟨n, p, hget, rfl⟩
    rcases hderived.made hget with ⟨id, hstart, -⟩
    exact ⟨id, hblocks.leads hstart⟩
  rw [resolve_ofAnalysis]
  by_cases hentered : a.EnteredAt x
  · simp only [if_pos (hentries.mpr hentered), Option.some_or, Option.some.injEq, hsub hentered,
      hentered, true_and, not_true_eq_false, false_and, or_false, eq_comm]
  · rw [if_neg (mt hentries.mp hentered), Option.none_or]
    by_cases hstart : a.StartsAt x
    · simp only [if_pos (hstarts.mpr hstart), Option.some.injEq, hstart, hentered, false_and,
        not_false_eq_true, true_and, false_or, eq_comm]
    · simp only [if_neg (mt hstarts.mp hstart), reduceCtorEq, hstart, false_and]

end Resolve

/-- What labels tell, and what tells labels. An address is named if a block starts there, the first
    word of its name says whether it is entered as a procedure, and no name is given twice. -/
structure Unambiguous (a : Analysis) (labels : Labels) : Prop where
  total : ∀ x, (labels.resolve x).isSome ↔ a.StartsAt x
  procedures : ∀ x name, labels.resolve x = some name →
    ((∃ rest, name = "proc_" ++ rest) ↔ a.EnteredAt x)
  others : ∀ x name, labels.resolve x = some name →
    ((∃ rest, name = "loc_" ++ rest) ↔ ¬ a.EnteredAt x)
  distinct : ∀ x y name, labels.resolve x = some name → labels.resolve y = some name → x = y

/-- The labels of the analysis of a session are unambiguous, whatever has been done to its blocks.
    The blocks need not be those that exploring has made: any history of additions and cuts keeps
    their starts indexed. -/
theorem unambiguous_ofSession (s : Session) (updates : List BlockStore.Update)
    (buildProcedures : Bool) :
    let a := Analysis.ofSession { s with blocks := .ofHistory updates } buildProcedures
    Unambiguous a (ofAnalysis a) := by
  intro a
  have hblocks : LeadsTo a.blocks.starts a.blocks.get? Block.start :=
    BlockStore.leadsTo_ofHistory updates
  have hderived : ProcedureTable.Derived a.blocks s.code a.flow a.procedures :=
    Analysis.derived_ofSession { s with blocks := .ofHistory updates } buildProcedures
  have hresolve : ∀ {x name}, (ofAnalysis a).resolve x = some name ↔ a.StartsAt x
      ∧ (a.EnteredAt x ∧ name = label "proc" x ∨ ¬ a.EnteredAt x ∧ name = label "loc" x) :=
    resolve_eq_some_iff hblocks hderived
  -- The word that a label begins with tells procedures and other blocks apart.
  have hprocedures : ∀ {x name}, (ofAnalysis a).resolve x = some name →
      ((∃ rest, name = "proc_" ++ rest) ↔ a.EnteredAt x) := by
    intro x name h
    rcases (hresolve.mp h).2 with ⟨hentered, rfl⟩ | ⟨hentered, rfl⟩
    · exact iff_of_true (exists_label_eq "proc" x) hentered
    · refine iff_of_false ?_ hentered
      rintro ⟨rest, hproc⟩
      rcases exists_label_eq "loc" x with ⟨rest', hloc⟩
      exact proc_append_ne_loc_append rest rest' (hproc.symm.trans hloc)
  refine ⟨fun x => ?_, fun x name h => hprocedures h, fun x name h => ?_, fun x y name hx hy => ?_⟩
  · rw [Option.isSome_iff_exists]
    constructor
    · rintro ⟨name, h⟩
      exact (hresolve.mp h).1
    · intro hstart
      by_cases hentered : a.EnteredAt x
      · exact ⟨_, hresolve.mpr ⟨hstart, Or.inl ⟨hentered, rfl⟩⟩⟩
      · exact ⟨_, hresolve.mpr ⟨hstart, Or.inr ⟨hentered, rfl⟩⟩⟩
  · rw [← hprocedures h]
    constructor
    · rintro ⟨rest, hloc⟩ ⟨rest', hproc⟩
      exact proc_append_ne_loc_append rest' rest (hproc.symm.trans hloc)
    · intro hnot
      rcases (hresolve.mp h).2 with ⟨hentered, -⟩ | ⟨-, rfl⟩
      · exact absurd ((hprocedures h).mpr hentered) hnot
      · exact exists_label_eq "loc" x
  · -- The label tells whether procedures are entered, so it is made in the same way for both.
    have hsame : a.EnteredAt x ↔ a.EnteredAt y := (hprocedures hx).symm.trans (hprocedures hy)
    rcases (hresolve.mp hx).2 with ⟨hentered, hnamex⟩ | ⟨hentered, hnamex⟩
    · rcases (hresolve.mp hy).2 with ⟨-, hnamey⟩ | ⟨hnot, -⟩
      · exact label_inj (hnamex.symm.trans hnamey)
      · exact absurd (hsame.mp hentered) hnot
    · rcases (hresolve.mp hy).2 with ⟨hentered', -⟩ | ⟨-, hnamey⟩
      · exact absurd (hsame.mpr hentered') hentered
      · exact label_inj (hnamex.symm.trans hnamey)

end Labels

end Disasm86
