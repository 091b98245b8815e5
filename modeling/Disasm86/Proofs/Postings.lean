import Disasm86.Postings
import Mathlib.Data.List.Basic

/-!
# Postings as an Index

A list that only grows can be indexed while it grows: each entry is posted under its key at
the position where it is about to stand. `Postings.Indexes` says that an index has been kept
like that, and what it is good for: selecting by a key filters the list, in order and with
repetitions.

The keys of entries are optional, since an entry without a key is not posted at all.

The positions have to be bounded along with what they select. Selecting skips a position at
which nothing stands, so without the bound an index could hold positions that are wrong but
do not show before the list has grown that far.

## Main definitions

* `Postings.Indexes`: An index leads to the entries of a list by their keys.

## Theorems

* `Postings.get_post`: The positions of a key after one more has been posted.
* `Postings.Indexes.skip`: An entry without a key keeps an index right.
* `Postings.Indexes.post`: So does posting the next position.
-/

namespace Disasm86

namespace Postings

variable {κ α : Type} [Ord κ] [DecidableEq κ]

/-- Selecting the entries of a key is filtering them by the key. -/
structure Indexes (p : Postings κ) (key : α → Option κ) (entries : Array α) : Prop where
  bounded : ∀ {k n}, n ∈ p.get k → n < entries.size
  select_eq : ∀ k, p.select k entries = entries.toList.filter fun x => key x = some k

variable {p : Postings κ} {key : α → Option κ} {entries : Array α} {x : α} {k : κ}

/-- An entry behind the others is in the way of none of them. -/
theorem Indexes.select_push (h : Indexes p key entries) (x : α) (k : κ) :
    p.select k (entries.push x) = p.select k entries := by
  unfold select
  refine List.filterMap_congr fun n hn => ?_
  have hlt := h.bounded (Array.mem_toList_iff.mp hn)
  rw [Array.getElem?_push, if_neg (by omega)]

/-- An entry without a key is in no one's way, so an index that does not know of it stays
    right. -/
theorem Indexes.skip (h : Indexes p key entries) (hkey : key x = none) :
    Indexes p key (entries.push x) where
  bounded := by
    intro k n hn
    rw [Array.size_push]
    exact Nat.lt_succ_of_lt (h.bounded hn)
  select_eq := by
    intro k
    rw [h.select_push, h.select_eq, Array.toList_push, List.filter_append]
    simp [hkey]

variable [Std.TransOrd κ]

/-- Nothing is posted for an empty array. -/
theorem indexes_empty (key : α → Option κ) : Indexes (empty : Postings κ) key #[] where
  bounded := by
    intro k n h
    simp [get, empty] at h
  select_eq := by
    intro k
    simp [select]

variable [Std.LawfulEqOrd κ]

/-- A position is posted behind those of its key, and the other keys keep theirs. -/
theorem get_post (p : Postings κ) (k k' : κ) (n : Nat) :
    (p.post k n).get k' = if k' = k then (p.get k').push n else p.get k' := by
  unfold get post
  rw [Std.TreeMap.getD_alter]
  by_cases h : k' = k
  · rw [if_pos h, if_pos (by rw [h]; exact Std.ReflCmp.compare_self), h]
    simp only [Option.getD_some, Std.TreeMap.getD_eq_getD_getElem?]
  · rw [if_neg h, if_neg (fun hc => h (Std.LawfulEqCmp.eq_of_compare hc).symm)]

/-- Posting the position at which the next entry will stand keeps an index right. -/
theorem Indexes.post (h : Indexes p key entries) (hkey : key x = some k) :
    Indexes (p.post k entries.size) key (entries.push x) where
  bounded := by
    intro k' n hn
    rw [get_post] at hn
    rw [Array.size_push]
    split at hn
    · rcases Array.mem_push.mp hn with hold | rfl
      · exact Nat.lt_succ_of_lt (h.bounded hold)
      · exact Nat.lt_succ_self _
    · exact Nat.lt_succ_of_lt (h.bounded hn)
  select_eq := by
    intro k'
    have hold := h.select_push x k'
    rw [h.select_eq k'] at hold
    unfold select at hold ⊢
    rw [get_post, Array.toList_push, List.filter_append]
    -- The entry is filtered in for its own key alone, and there it is the last one.
    by_cases hk : k' = k
    · rw [if_pos hk, Array.toList_push, List.filterMap_append, hold]
      simp [hkey, hk]
    · rw [if_neg hk, hold]
      have hne : ¬ k = k' := fun heq => hk heq.symm
      simp [hkey, hne]

end Postings

end Disasm86
