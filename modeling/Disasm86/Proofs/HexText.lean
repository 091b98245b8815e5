import Disasm86.Address

/-!
# Reading Hexadecimal Text Back

The digits of a number stand for the number, so no two numbers have the same text. This holds for
any padding and for every number of digits: zeros in front add nothing, and a number that has more
digits than it is padded to shows all of them.

What is printed in upper case are the digits of `Nat.toDigits`, one by one, so a digit is looked at
together with its upper case.

## Main definitions

* `Hex.valueOf`: The number that digits stand for.

## Theorems

* `Hex.valueOf_upper`: Upper-case text stands for the number that it is the text of.
* `Hex.isSome_value?_of_mem_upper`: It is made of digits alone.
* `Address.wordText_injective`: No two words have the same text.
-/

namespace Disasm86

namespace Hex

/-- The number that digits stand for, behind others that stand for `acc`. -/
def valueOf (acc : Nat) (cs : List Char) : Nat :=
  cs.foldl (fun acc c => acc * 16 + (value? c).getD 0) acc

/-- Digits in front are worth what they stand for, which the others start from. -/
theorem valueOf_append (acc : Nat) (cs ds : List Char) :
    valueOf acc (cs ++ ds) = valueOf (valueOf acc cs) ds := List.foldl_append

/-- A digit in upper case still stands for what it was made from. -/
theorem value?_toUpper_digitChar {d : Nat} (h : d < 16) :
    value? d.digitChar.toUpper = some d := by
  have hall : ∀ d < 16, value? (Nat.digitChar d).toUpper = some d := by decide
  exact hall d h

theorem valueOf_replicate_zero (k : Nat) : valueOf 0 (List.replicate k '0') = 0 := by
  induction k with
  | zero => rfl
  | succ k ih =>
      rw [List.replicate_succ]
      exact ih

/-- The digits of a number stand for it, and there is nothing else. The induction takes the last
    digit off. -/
theorem valueOf_map_toDigits (n : Nat) :
    valueOf 0 ((Nat.toDigits 16 n).map Char.toUpper) = n
      ∧ ∀ c ∈ (Nat.toDigits 16 n).map Char.toUpper, (value? c).isSome := by
  have hlast : ∀ acc d, d < 16 → valueOf acc [d.digitChar.toUpper] = 16 * acc + d := by
    intro acc d hd
    rw [valueOf, List.foldl_cons, List.foldl_nil, value?_toUpper_digitChar hd, Option.getD_some,
      Nat.mul_comm]
  -- The number is split into its last digit and the rest, as printing does it.
  induction n using Nat.base_induction 16 (by decide) with
  | single d hd =>
      rw [Nat.toDigits_of_lt_base hd, List.map_singleton, hlast 0 d hd]
      simp [value?_toUpper_digitChar hd]
  | digit n d hd hn ih =>
      rw [← Nat.toDigits_append_toDigits (by decide) hn hd, Nat.toDigits_of_lt_base hd,
        List.map_append, List.map_singleton, valueOf_append, ih.1, hlast n d hd]
      refine ⟨rfl, fun c hc => ?_⟩
      rcases List.mem_append.mp hc with hc | hc
      · exact ih.2 c hc
      · rw [List.mem_singleton.mp hc, value?_toUpper_digitChar hd]
        rfl

/-- Text in upper case is padding, of some length, and then the digits. The length does not matter
    to anyone, so it is left open. -/
theorem toList_upper (width n : Nat) : ∃ k, (upper width n).toList
    = List.replicate k '0' ++ (Nat.toDigits 16 n).map Char.toUpper := by
  refine ⟨width - (Nat.toDigits 16 n).length, ?_⟩
  rw [upper, String.toList_ofList, digits, List.leftpad, List.map_append, List.map_replicate]
  rfl

/-- Upper-case text stands for the number that it is the text of, padded or not. -/
theorem valueOf_upper (width n : Nat) : valueOf 0 (upper width n).toList = n := by
  rcases toList_upper width n with ⟨k, hk⟩
  rw [hk, valueOf_append, valueOf_replicate_zero, (valueOf_map_toDigits n).1]

/-- All of upper-case text are digits, also the padding. -/
theorem isSome_value?_of_mem_upper {width n : Nat} {c : Char}
    (h : c ∈ (upper width n).toList) : (value? c).isSome := by
  rcases toList_upper width n with ⟨k, hk⟩
  rw [hk] at h
  rcases List.mem_append.mp h with h | h
  · rw [(List.mem_replicate.mp h).2]
    decide
  · exact (valueOf_map_toDigits n).2 c h

end Hex

namespace Address

/-- No two words have the same text. A negative word is printed by its bits, so nothing but its bits
    has to be recovered. -/
theorem wordText_injective {v w : Int32} (h : wordText v = wordText w) : v = w := by
  have hvalue := congrArg (fun t => Hex.valueOf 0 t.toList) h
  simp only [wordText, Hex.valueOf_upper] at hvalue
  exact Int32.toBitVec_inj.mp (BitVec.eq_of_toNat_eq hvalue)

/-- A character that is no digit is in the text of no word. -/
theorem notMem_wordText {c : Char} (hc : Hex.value? c = none) (w : Int32) :
    c ∉ (wordText w).toList := by
  intro h
  have hdigit := Hex.isSome_value?_of_mem_upper h
  rw [hc] at hdigit
  cases hdigit

end Address

end Disasm86
