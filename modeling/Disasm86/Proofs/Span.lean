import Disasm86.Address
import Std.Data.TreeMap

/-!
# Spans of Addresses

The bytes that follow an address, and the order that addresses stand in.

Addresses are pairs of 32-bit words and moving one wraps, so nothing about them is
true without a bound. All bounds in this theory come from one place: an image ends
below the first offset that a 16-bit register cannot hold, which is far below the
end of the 32-bit range. The lemmas here ask for the weaker bound, that a span ends
inside the range, and after that the offsets can be read as integers and no lemma
mentions a word again.

A span is a start and a length rather than two addresses. Two addresses may lie in
different segments, and every statement would have to say that they do not.

The order is the one that the stores keep their keys in. What the stores ask of it
is the last key before an address, and `getEntryLT?_eq_some_iff` and
`getEntryLE?_eq_some_iff` say which one that is: a key before the address that no
other such key lies behind.

## Main definitions

* `Address.Spans`: An address is one of so many bytes behind another.

## Theorems

* `Address.eq_of_offset_eq`: In one segment, the offset decides.
* `Address.isSomewhere_of_nonneg`: Offsets that are not negative name a place.
* `Address.toInt_advance`: Advancing adds, inside the 32-bit range.
* `Address.spans_succ_iff`: The first byte of a span and the rest.
* `Address.spans_add_iff`: A span is the front and what is behind it.
* `Address.compare_eq_lt_iff`: The order of addresses.
* `Address.between_of_compare`, `Address.between_iff`: What lies between two addresses of a
  segment.
* `getElem?_insert_ite`: The entries behind an insertion.
* `values_eq_map_toList`: The values stand in the order of their keys.
* `getEntryLT?_eq_some_iff`: The last entry before a key.
* `getEntryLE?_eq_some_iff`: The last entry that is not behind a key.
-/

namespace Disasm86

namespace Address

/-- `a` is one of the `n` bytes from `start` on. -/
def Spans (start : Address) (n : Nat) (a : Address) : Prop :=
  a.segment = start.segment ∧ start.offset.toInt ≤ a.offset.toInt
    ∧ a.offset.toInt < start.offset.toInt + n

instance (start : Address) (n : Nat) (a : Address) : Decidable (start.Spans n a) :=
  inferInstanceAs (Decidable (_ ∧ _ ∧ _))

/-- Addresses are compared by their offsets as numbers, since order and distance are those of
    numbers. -/
theorem eq_of_offset_eq {a b : Address} (hs : a.segment = b.segment)
    (ho : a.offset.toInt = b.offset.toInt) : a = b := by
  cases a
  cases b
  simp only [Address.mk.injEq]
  exact ⟨hs, Int32.toInt_inj.mp ho⟩

/-- The address that names no place has a negative offset. -/
theorem isSomewhere_of_nonneg {a : Address} (h : 0 ≤ a.offset.toInt) : a.isSomewhere := by
  simp only [isSomewhere, bne_iff_ne, ne_eq]
  intro heq
  rw [heq] at h
  exact absurd h (by decide)

@[simp] theorem advance_segment (a : Address) (n : Nat) : (a.advance n).segment = a.segment := rfl

theorem advance_zero (a : Address) : a.advance 0 = a := by
  simp [advance, offsetBy]

/-- Advancing adds up, even where offsets wrap around. -/
theorem advance_advance (a : Address) (m n : Nat) :
    (a.advance m).advance n = a.advance (m + n) := by
  simp only [advance, offsetBy, Int32.ofNat_add, Int32.add_assoc]

/-- Inside the 31 bits of the positive offsets advancing is adding. -/
theorem toInt_advance {a : Address} {n : Nat} (h0 : 0 ≤ a.offset.toInt)
    (h : a.offset.toInt + n < 0x80000000) : (a.advance n).offset.toInt = a.offset.toInt + n := by
  have hn : (Int32.ofNat n).toInt = n := Int32.toInt_ofNat_of_lt (by omega)
  simp only [advance, offsetBy, Int32.toInt_add, hn]
  exact Int.bmod_eq_of_le (by omega) (by omega)

theorem spans_self {a : Address} {n : Nat} (h : 0 < n) : a.Spans n a :=
  ⟨rfl, Int.le_refl _, by omega⟩

theorem not_spans_zero (start a : Address) : ¬ start.Spans 0 a := by
  intro h
  have hlo := h.2.1
  have hhi := h.2.2
  omega

/-- A span is its front and what is behind the front. -/
theorem spans_add_iff {start a : Address} {m n : Nat} (h0 : 0 ≤ start.offset.toInt)
    (h : start.offset.toInt + m < 0x80000000) :
    start.Spans (m + n) a ↔ start.Spans m a ∨ (start.advance m).Spans n a := by
  have hm := toInt_advance h0 h
  simp only [Spans, advance_segment, hm]
  constructor
  · intro h
    rcases h with ⟨hs, h1, h2⟩
    by_cases hlt : a.offset.toInt < start.offset.toInt + m
    · exact Or.inl ⟨hs, h1, hlt⟩
    · exact Or.inr ⟨hs, by omega, by omega⟩
  · intro h
    rcases h with ⟨hs, h1, h2⟩ | ⟨hs, h1, h2⟩
    · exact ⟨hs, h1, by omega⟩
    · exact ⟨hs, by omega, by omega⟩

/-- The span of one byte is that byte. -/
theorem spans_one_iff {start a : Address} : start.Spans 1 a ↔ a = start := by
  constructor
  · intro h
    have hlo := h.2.1
    have hhi := h.2.2
    exact eq_of_offset_eq h.1 (by omega)
  · intro h
    rw [h]
    exact spans_self Nat.one_pos

/-- A span is its first byte and the rest. Every walk over a span follows this. -/
theorem spans_succ_iff {start a : Address} {n : Nat} (h0 : 0 ≤ start.offset.toInt)
    (h : start.offset.toInt + 1 < 0x80000000) :
    start.Spans (n + 1) a ↔ a = start ∨ (start.advance 1).Spans n a := by
  rw [Nat.add_comm, spans_add_iff h0 h, spans_one_iff]

/-- Segments decide first, and offsets inside one segment. -/
theorem compare_eq_lt_iff {a b : Address} :
    compare a b = .lt ↔ a.segment < b.segment
      ∨ a.segment = b.segment ∧ a.offset.toInt < b.offset.toInt := by
  have hdef : compare a b = (compare a.segment b.segment).then (compare a.offset b.offset) := rfl
  rw [hdef, Ordering.then_eq_lt, Std.compare_eq_lt, Std.compare_eq_lt,
    Std.LawfulEqCmp.compare_eq_iff_eq, Int32.lt_iff_toInt_lt (x := a.offset)]

/-- Inside one segment, being before is having the lesser offset. -/
theorem compare_eq_lt_iff_of_segment_eq {a b : Address} (hs : a.segment = b.segment) :
    compare a b = .lt ↔ a.offset.toInt < b.offset.toInt := by
  rw [compare_eq_lt_iff, hs]
  have hirr : ¬ b.segment < b.segment := by
    rw [Int32.lt_iff_toInt_lt]
    omega
  simp only [hirr, true_and, false_or]

/-- Not being behind is the negation of being behind, as addresses are ordered linearly. -/
theorem isLE_compare_iff {a b : Address} : (compare a b).isLE ↔ ¬ compare b a = .lt := by
  rw [← Std.OrientedCmp.gt_iff_lt]
  cases compare a b <;> simp

theorem isLE_compare_iff_of_segment_eq {a b : Address} (hs : a.segment = b.segment) :
    (compare a b).isLE ↔ a.offset.toInt ≤ b.offset.toInt := by
  rw [isLE_compare_iff, compare_eq_lt_iff_of_segment_eq hs.symm]
  omega

/-- What lies between two addresses of a segment is in that segment. -/
theorem between_of_compare {a b c : Address} (hs : a.segment = b.segment)
    (hbc : compare b c = .lt) (hca : (compare c a).isLE) :
    c.segment = b.segment ∧ b.offset.toInt < c.offset.toInt
      ∧ c.offset.toInt ≤ a.offset.toInt := by
  rw [isLE_compare_iff, compare_eq_lt_iff] at hca
  rcases compare_eq_lt_iff.mp hbc with hlt | ⟨heq, hlt⟩
  · exact absurd (Or.inl (by rw [hs]; exact hlt)) hca
  · exact ⟨heq.symm, hlt, Int.not_lt.mp fun hc => hca (Or.inr ⟨by rw [hs, heq], hc⟩)⟩

/-- The same with the other end left out. -/
theorem between_of_isLE_compare {a b c : Address} (hs : a.segment = b.segment)
    (hbc : (compare b c).isLE) (hca : compare c a = .lt) :
    c.segment = b.segment ∧ b.offset.toInt ≤ c.offset.toInt
      ∧ c.offset.toInt < a.offset.toInt := by
  rw [isLE_compare_iff, compare_eq_lt_iff] at hbc
  rcases compare_eq_lt_iff.mp hca with hlt | ⟨heq, hlt⟩
  · exact absurd (Or.inl (by rw [← hs]; exact hlt)) hbc
  · have hcb := heq.trans hs
    exact ⟨hcb, Int.not_lt.mp fun hc => hbc (Or.inr ⟨hcb, hc⟩), hlt⟩

/-- Addresses from one of a segment up to another, by their order and by their offsets. -/
theorem between_iff {a b c : Address} (hs : a.segment = b.segment) :
    (compare b c).isLE ∧ compare c a = .lt ↔ c.segment = b.segment
      ∧ b.offset.toInt ≤ c.offset.toInt ∧ c.offset.toInt < a.offset.toInt := by
  refine ⟨fun h => between_of_isLE_compare hs h.1 h.2, fun h => ?_⟩
  rw [isLE_compare_iff_of_segment_eq h.1.symm,
    compare_eq_lt_iff_of_segment_eq (h.1.trans hs.symm)]
  exact h.2

end Address

section Entries

variable {κ β : Type} [Ord κ]

theorem values_eq_map_toList (t : Std.TreeMap κ β) : t.values = t.toList.map (·.2) := by
  have hfold : t.values = t.foldr (fun _ v vs => v :: vs) [] := rfl
  rw [hfold, Std.TreeMap.foldr_eq_foldr_toList, List.map_eq_foldr]

variable [Std.TransOrd κ]

/-- Looking a key up behind an insertion, by whether it is the key inserted. -/
theorem getElem?_insert_ite [DecidableEq κ] [Std.LawfulEqOrd κ] (t : Std.TreeMap κ β) (a b : κ)
    (v : β) : (t.insert a v)[b]? = if b = a then some v else t[b]? := by
  rw [Std.TreeMap.getElem?_insert]
  by_cases h : b = a
  · rw [if_pos h, if_pos (by rw [h]; exact Std.ReflCmp.compare_self)]
  · rw [if_neg h, if_neg (fun hc => h (Std.LawfulEqCmp.eq_of_compare hc).symm)]

/-- Looking up the last entry before a key is searching the entries from the back. -/
theorem getEntryLT?_eq_findRev? (t : Std.TreeMap κ β) (k : κ) :
    t.getEntryLT? k = t.toList.findRev? (fun entry => (compare entry.1 k).isLT) := by
  rw [Std.TreeMap.getEntryLT?, Std.DTreeMap.Const.getEntryLT?,
    Std.DTreeMap.Internal.Impl.Const.getEntryLT?_eq_map,
    Std.DTreeMap.Internal.Impl.getEntryLT?_eq_findRev? t.inner.wf.ordered, Std.TreeMap.toList,
    Std.DTreeMap.Const.toList, Std.DTreeMap.Internal.Impl.Const.toList_eq_toListModel_map]
  simp only [List.findRev?_eq_find?_reverse, ← List.map_reverse, List.find?_map]
  rfl

/-- The same for the last entry that is not behind a key. -/
theorem getEntryLE?_eq_findRev? (t : Std.TreeMap κ β) (k : κ) :
    t.getEntryLE? k = t.toList.findRev? (fun entry => (compare entry.1 k).isLE) := by
  rw [Std.TreeMap.getEntryLE?, Std.DTreeMap.Const.getEntryLE?,
    Std.DTreeMap.Internal.Impl.Const.getEntryLE?_eq_map,
    Std.DTreeMap.Internal.Impl.getEntryLE?_eq_findRev? t.inner.wf.ordered, Std.TreeMap.toList,
    Std.DTreeMap.Const.toList, Std.DTreeMap.Internal.Impl.Const.toList_eq_toListModel_map]
  simp only [List.findRev?_eq_find?_reverse, ← List.map_reverse, List.find?_map]
  rfl

/-- Searching entries with ascending keys from the back finds the one entry of the
    searched kind that no other lies behind. -/
theorem findRev?_eq_some_iff_of_ascending {l : List (κ × β)} {p : κ → Bool} {entry : κ × β}
    (hasc : l.Pairwise (fun x y => compare x.1 y.1 = .lt)) :
    l.findRev? (fun x => p x.1) = some entry ↔
      entry ∈ l ∧ p entry.1 ∧ ∀ x ∈ l, p x.1 → (compare x.1 entry.1).isLE := by
  -- By induction on the list. What is found in the rest is preferred to the first entry.
  induction l generalizing entry with
  | nil => simp [List.findRev?]
  | cons x xs ih =>
      rw [List.pairwise_cons] at hasc
      rcases hasc with ⟨hx, hxs⟩
      cases hrest : xs.findRev? (fun x => p x.1) with
      | some found =>
          -- Something behind `x` is found, and `x` lies before it.
          rcases (ih hxs).mp hrest with ⟨hmem, hp, -⟩
          simp only [List.findRev?, hrest]
          rw [← hrest, ih hxs]
          constructor
          · intro h
            rcases h with ⟨he, hpe, hmax⟩
            refine ⟨List.mem_cons_of_mem _ he, hpe, fun y hy hpy => ?_⟩
            rcases List.mem_cons.mp hy with rfl | hy
            · rw [hx entry he]
              rfl
            · exact hmax y hy hpy
          · intro h
            rcases h with ⟨he, hpe, hmax⟩
            refine ⟨?_, hpe, fun y hy => hmax y (List.mem_cons_of_mem _ hy)⟩
            rcases List.mem_cons.mp he with rfl | he
            · have hle := hmax found (List.mem_cons_of_mem _ hmem) hp
              rw [Std.OrientedCmp.gt_iff_lt.mpr (hx found hmem)] at hle
              exact absurd hle (by decide)
            · exact he
      | none =>
          -- Nothing behind `x` is of the searched kind, so it is `x` or nothing.
          have hnone : ∀ y ∈ xs, ¬ p y.1 := by
            simpa [List.find?_eq_none] using hrest
          simp only [List.findRev?, hrest]
          constructor
          · intro h
            split at h
            · rename_i hp
              cases h
              refine ⟨List.mem_cons_self, hp, fun y hy hpy => ?_⟩
              rcases List.mem_cons.mp hy with rfl | hy
              · simp
              · exact absurd hpy (hnone y hy)
            · cases h
          · intro h
            rcases h with ⟨he, hpe, -⟩
            rcases List.mem_cons.mp he with rfl | he
            · rw [if_pos hpe]
            · exact absurd hpe (hnone entry he)

/-- The last entry before a key: it lies before the key, and no other entry that does
    lies behind it. -/
theorem getEntryLT?_eq_some_iff [Std.LawfulEqOrd κ] {t : Std.TreeMap κ β} {k a : κ} {v : β} :
    t.getEntryLT? k = some (a, v) ↔ t[a]? = some v ∧ compare a k = .lt
      ∧ ∀ b w, t[b]? = some w → compare b k = .lt → (compare b a).isLE := by
  rw [getEntryLT?_eq_findRev?,
    findRev?_eq_some_iff_of_ascending (p := fun x => (compare x k).isLT) t.ordered_keys_toList]
  simp only [Std.TreeMap.mem_toList_iff_getElem?_eq_some, Prod.forall, Ordering.isLT_iff_eq_lt]

/-- If an entry lies before the key, then so does a last one. -/
theorem exists_getEntryLT? [Std.LawfulEqOrd κ] {t : Std.TreeMap κ β} {k b : κ} {w : β}
    (hb : t[b]? = some w) (hlt : compare b k = .lt) : ∃ a v, t.getEntryLT? k = some (a, v) := by
  cases h : t.getEntryLT? k with
  | some entry => exact ⟨entry.1, entry.2, rfl⟩
  | none =>
      rw [getEntryLT?_eq_findRev?, List.findRev?_eq_find?_reverse, List.find?_eq_none] at h
      have hmem : (b, w) ∈ t.toList.reverse :=
        List.mem_reverse.mpr (Std.TreeMap.mem_toList_iff_getElem?_eq_some.mpr hb)
      exact absurd (Ordering.isLT_iff_eq_lt.mpr hlt) (h _ hmem)

/-- The last entry that is not behind a key. -/
theorem getEntryLE?_eq_some_iff [Std.LawfulEqOrd κ] {t : Std.TreeMap κ β} {k a : κ} {v : β} :
    t.getEntryLE? k = some (a, v) ↔ t[a]? = some v ∧ (compare a k).isLE
      ∧ ∀ b w, t[b]? = some w → (compare b k).isLE → (compare b a).isLE := by
  rw [getEntryLE?_eq_findRev?,
    findRev?_eq_some_iff_of_ascending (p := fun x => (compare x k).isLE) t.ordered_keys_toList]
  simp only [Std.TreeMap.mem_toList_iff_getElem?_eq_some, Prod.forall]

end Entries

end Disasm86
