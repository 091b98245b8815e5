import Disasm86.ByteMap
import Disasm86.Proofs.Span

/-!
# Marking Bytes

What marking a range does to each byte. `ByteMap.put` is defined by walking the range
byte by byte; `get_put` says the result in one line, as a case distinction on whether
a byte lies in the range, and nothing after it looks at the walk again.

The walk moves by `Address.advance`, so a range has to end inside the 32-bit offsets.
Every range that is ever marked does, because the end of a range is itself an address.

`mark_advance` and `isUnknownBetween_advance` are the forms that exploring needs. A
range there is given by the length of an instruction or a slot, and its end is the
start advanced by that length.

## Theorems

* `get_insert`: Marking one byte changes that byte.
* `get_fill`: Filling a span gives its bytes one mark.
* `get_put`: Putting a range marks its bytes, and the first as lead.
* `firstTyped?_eq_none_iff`: No byte of a span has a kind.
* `firstTyped?_eq_some`: The first byte of a span that has one.
* `spanSize_advance`: The size of a span from its two ends.
* `isUnknownBetween_advance`: Nothing is known of a span.
* `mark_advance`: A span of which nothing is known can be marked.
-/

namespace Disasm86

namespace ByteMap

@[simp] theorem get_empty (a : Address) : (empty : ByteMap).get a = {} := by
  simp [get, empty]

/-- Marking one byte changes that byte and no other. -/
theorem get_insert (m : ByteMap) (a b : Address) (mark : ByteMark) :
    (ByteMap.mk (m.marks.insert a mark)).get b = if b = a then mark else m.get b := by
  unfold get
  rw [Std.TreeMap.getD_eq_getD_getElem?, getElem?_insert_ite]
  by_cases h : b = a
  · rw [if_pos h, if_pos h, Option.getD_some]
  · rw [if_neg h, if_neg h, Std.TreeMap.getD_eq_getD_getElem?]

/-- Filling a span gives all of its bytes one mark. The bounds keep the walk from wrapping around,
    and hold for the rest of the span as well. -/
theorem get_fill (m : ByteMap) (a b : Address) (mark : ByteMark) (n : Nat)
    (h0 : 0 ≤ a.offset.toInt) (hn : a.offset.toInt + n < 0x80000000) :
    (m.fill a mark n).get b = if a.Spans n b then mark else m.get b := by
  -- By induction on the length. The map is generalized because the first byte is marked before the
  -- rest.
  induction n generalizing m a with
  | zero => rw [fill, if_neg (Address.not_spans_zero a b)]
  | succ n ih =>
      have h1 : (a.advance 1).offset.toInt = a.offset.toInt + 1 :=
        Address.toInt_advance h0 (by omega)
      have hsucc := Address.spans_succ_iff (a := b) (n := n) h0 (by omega)
      rw [fill, ih _ _ (by omega) (by omega), get_insert]
      by_cases hrest : (a.advance 1).Spans n b
      · rw [if_pos hrest, if_pos (hsucc.mpr (Or.inr hrest))]
      · rw [if_neg hrest]
        by_cases hb : b = a
        · rw [if_pos hb, if_pos (hsucc.mpr (Or.inl hb))]
        · rw [if_neg hb, if_neg (fun hc => (hsucc.mp hc).elim hb hrest)]

/-- The bytes of a range get its kind, the first of them as lead, and no other byte changes. The
    bounds say that the range does not reach the end of the 31 bits of positive offsets. -/
theorem get_put (m : ByteMap) (a b : Address) (kind : ByteKind) (n : Nat)
    (h0 : 0 ≤ a.offset.toInt) (hn : a.offset.toInt + n < 0x80000000) :
    (m.put a kind n).get b = if a.Spans n b then ⟨kind, b = a⟩ else m.get b := by
  -- No induction is needed: behind the first byte a range is filled.
  cases n with
  | zero => rw [put, if_neg (Address.not_spans_zero a b)]
  | succ n =>
      have h1 : (a.advance 1).offset.toInt = a.offset.toInt + 1 :=
        Address.toInt_advance h0 (by omega)
      have hsucc := Address.spans_succ_iff (a := b) (n := n) h0 (by omega)
      rw [put, get_fill _ _ _ _ _ (by omega) (by omega), get_insert]
      by_cases hrest : (a.advance 1).Spans n b
      · -- The rest of a range lies behind its first byte, so the first is not in it.
        have hb : ¬ b = a := by
          intro heq
          have hbehind := hrest.2.1
          rw [heq] at hbehind
          omega
        rw [if_pos hrest, if_pos (hsucc.mpr (Or.inr hrest))]
        simp only [hb, decide_false]
      · rw [if_neg hrest]
        by_cases hb : b = a
        · rw [if_pos hb, if_pos (hsucc.mpr (Or.inl hb))]
          simp only [hb, decide_true]
        · rw [if_neg hb, if_neg (fun hc => (hsucc.mp hc).elim hb hrest)]

/-- No byte of a span is found to have a kind exactly if all of them are unknown. -/
theorem firstTyped?_eq_none_iff (m : ByteMap) (a : Address) (n : Nat)
    (h0 : 0 ≤ a.offset.toInt) (hn : a.offset.toInt + n < 0x80000000) :
    m.firstTyped? a n = none ↔ ∀ b, a.Spans n b → (m.get b).kind = .unknown := by
  induction n generalizing a with
  | zero =>
      simp only [firstTyped?, true_iff]
      exact fun b hb => absurd hb (Address.not_spans_zero a b)
  | succ n ih =>
      have h1 : (a.advance 1).offset.toInt = a.offset.toInt + 1 :=
        Address.toInt_advance h0 (by omega)
      have hsucc := fun b => Address.spans_succ_iff (a := b) (n := n) h0 (by omega)
      unfold firstTyped?
      by_cases hk : (m.get a).kind = .unknown
      · rw [if_pos (by simp only [ByteMark.isUnknown, hk, decide_true]),
          ih _ (by omega) (by omega)]
        constructor
        · intro h b hb
          rcases (hsucc b).mp hb with rfl | hb
          · exact hk
          · exact h b hb
        · exact fun h b hb => h b ((hsucc b).mpr (Or.inr hb))
      · -- The first byte has a kind already, so both sides fail.
        rw [if_neg (by simp only [ByteMark.isUnknown, hk, decide_false, Bool.false_eq_true,
          not_false_eq_true])]
        simp only [reduceCtorEq, false_iff]
        exact fun h => hk (h a ((hsucc a).mpr (Or.inl rfl)))

/-- What is found is a byte of the span that has a kind, and the nearest one to its start. The walk
    goes from byte to byte, so nothing with a kind has been passed over. -/
theorem firstTyped?_eq_some {m : ByteMap} {a b : Address} {n : Nat}
    (h0 : 0 ≤ a.offset.toInt) (hn : a.offset.toInt + n < 0x80000000)
    (h : m.firstTyped? a n = some b) :
    a.Spans n b ∧ (m.get b).kind ≠ .unknown
      ∧ ∀ c, a.Spans n c → (m.get c).kind ≠ .unknown → b.offset.toInt ≤ c.offset.toInt := by
  induction n generalizing a with
  | zero => simp only [firstTyped?, reduceCtorEq] at h
  | succ n ih =>
      have h1 : (a.advance 1).offset.toInt = a.offset.toInt + 1 :=
        Address.toInt_advance h0 (by omega)
      have hsucc := fun c => Address.spans_succ_iff (a := c) (n := n) h0 (by omega)
      unfold firstTyped? at h
      split at h
      · -- The first byte is unknown, so what is found lies behind it.
        rename_i hunknown
        rcases ih (by omega) (by omega) h with ⟨hspan, htyped, hfirst⟩
        refine ⟨(hsucc b).mpr (Or.inr hspan), htyped, fun c hc hkind => ?_⟩
        rcases (hsucc c).mp hc with rfl | hc
        · exact absurd (of_decide_eq_true hunknown) hkind
        · exact hfirst c hc hkind
      · rename_i hknown
        rw [Option.some.injEq] at h
        rw [← h]
        refine ⟨(hsucc a).mpr (Or.inl rfl), ?_, fun c hc _ => hc.2.1⟩
        exact fun hkind => hknown (decide_eq_true hkind)

/-- A span that ends `n` bytes behind its start has `n` bytes. -/
theorem spanSize_advance {a : Address} {n : Nat} (h0 : 0 ≤ a.offset.toInt)
    (hn : a.offset.toInt + n < 0x80000000) : spanSize a (a.advance n) = n := by
  rw [spanSize, Address.toInt_advance h0 hn]
  omega

/-- Nothing is known of a span exactly if nothing is known of its bytes. -/
theorem isUnknownBetween_advance (m : ByteMap) {a : Address} {n : Nat}
    (h0 : 0 ≤ a.offset.toInt) (hn : a.offset.toInt + n < 0x80000000) :
    m.isUnknownBetween a (a.advance n) ↔ ∀ b, a.Spans n b → (m.get b).kind = .unknown := by
  rw [isUnknownBetween, spanSize_advance h0 hn, Option.isNone_iff_eq_none,
    firstTyped?_eq_none_iff m a n h0 hn]

/-- Marking succeeds on a span of which nothing is known. -/
theorem mark_advance (m : ByteMap) {a : Address} {n : Nat} {kind : ByteKind}
    (h0 : 0 ≤ a.offset.toInt) (hn : a.offset.toInt + n < 0x80000000) (hpos : 0 < n)
    (hkind : kind ≠ .unknown) (hfree : ∀ b, a.Spans n b → (m.get b).kind = .unknown) :
    m.mark a (a.advance n) kind = .ok (m.put a kind n) := by
  have hend := Address.toInt_advance h0 hn
  -- None of the reasons for refusing a range applies.
  have hrange : ¬ ((a.advance n).offset ≤ a.offset ∨ a.offset < 0 ∨ kind = .unknown) := by
    rw [Int32.le_iff_toInt_le, Int32.lt_iff_toInt_lt, Int32.toInt_zero]
    intro h
    rcases h with h | h | h
    · omega
    · omega
    · exact hkind h
  unfold mark
  rw [if_neg (by simp only [Address.advance_segment, ne_eq, not_true_eq_false, not_false_eq_true]),
    if_neg hrange, spanSize_advance h0 hn, (firstTyped?_eq_none_iff m a n h0 hn).mpr hfree]

end ByteMap

end Disasm86
