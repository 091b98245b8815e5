import Disasm86.Listing.Labels
import Disasm86.Proofs.Span

/-!
# What Labels Resolve To

Labels are entered in two rounds, procedures first, and an address that has a label keeps it.
So the label of an address is told by what starts there, and the order inside of a round does
not matter.

## Theorems

* `Labels.resolve_foldl_add`: A round names what had no name.
* `Labels.resolve_ofAnalysis`: The label of an address, by what starts there.
* `Labels.eq_label_of_resolve`: There are two kinds of names.
* `Labels.label_ne_empty`: No label is empty.
-/

namespace Disasm86

namespace Labels

variable {what : String} {x : Address}

/-- A name is given to an address that has none, and stays with it from then on. -/
theorem resolve_add (labels : Labels) (a : Address) :
    (labels.add what a).resolve x
      = (labels.resolve x).or (if x = a then some (label what x) else none) := by
  unfold resolve add
  rw [Std.TreeMap.getElem?_insertIfNew]
  by_cases hx : x = a
  · -- The address itself: its name is the new one only if it had none.
    rw [if_pos hx, ← hx]
    cases hname : labels.names[x]? with
    | none =>
        have hnew : x ∉ labels.names := by
          rw [Std.TreeMap.mem_iff_isSome_getElem?, hname]
          decide
        rw [if_pos ⟨Std.ReflCmp.compare_self, hnew⟩, Option.none_or]
    | some name =>
        have hold : x ∈ labels.names := by
          rw [Std.TreeMap.mem_iff_isSome_getElem?, hname]
          rfl
        rw [if_neg fun h => h.2 hold, Option.some_or]
  · rw [if_neg hx, if_neg fun h => hx (Std.LawfulEqCmp.eq_of_compare h.1).symm, Option.or_none]

/-- A round names the addresses of a list, as far as they had no name. -/
theorem resolve_foldl_add (l : List Address) (labels : Labels) :
    (l.foldl (add what) labels).resolve x
      = (labels.resolve x).or (if x ∈ l then some (label what x) else none) := by
  induction l generalizing labels with
  | nil => simp
  | cons a rest ih =>
      rw [List.foldl_cons, ih, resolve_add, Option.or_assoc]
      -- Named by this address or by a later one, the name is the same.
      by_cases hx : x = a
      · rw [if_pos hx, if_pos (List.mem_cons.mpr (Or.inl hx)), Option.some_or]
      · simp only [hx, if_false, Option.none_or, List.mem_cons, false_or]

/-- Where a procedure starts its name wins, and where only a block starts the block is named. -/
theorem resolve_ofAnalysis (a : Analysis) : (ofAnalysis a).resolve x
    = (if x ∈ a.procedures.inOrder.map (·.2.entry) then some (label "proc" x) else none).or
      (if x ∈ a.blocks.inOrder.map (·.2.start) then some (label "loc" x) else none) := by
  have hempty : (({} : Labels).resolve x) = none := Std.TreeMap.getElem?_emptyc
  rw [ofAnalysis, resolve_foldl_add, resolve_foldl_add, hempty, Option.none_or]

/-- A name is the label of a procedure or that of a block. -/
theorem eq_label_of_resolve {a : Analysis} {name : String}
    (h : (ofAnalysis a).resolve x = some name) : name = label "proc" x ∨ name = label "loc" x := by
  rw [resolve_ofAnalysis, Option.or_eq_some_iff] at h
  rcases h with h | ⟨-, h⟩
  · exact Or.inl (Option.some.inj (Option.ite_none_right_eq_some.mp h).2).symm
  · exact Or.inr (Option.some.inj (Option.ite_none_right_eq_some.mp h).2).symm

/-- Labels begin with a word. -/
theorem label_ne_empty (what : String) (a : Address) : label what a ≠ "" := by
  simp [label]

end Labels

end Disasm86
