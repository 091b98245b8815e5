import Disasm86.Address.Parse
import Disasm86.Proofs.HexText
import Disasm86.Proofs.Span
import Mathlib.Data.List.TakeWhile

/-!
# Typing an Address Back

What is printed can be typed, and so can what a person makes of it: digits in the other case, zeros
in front or none of them, a mark before the digits, blanks around a part. All of it is read as the
address that was printed.

Two things could go wrong. Marks are dropped as often as they stand in front, and a mark begins with
a zero as many numbers do. It also has a letter that is no digit, and that letter is looked for, so
no digit is ever taken for a part of a mark. And digits are read one by one against the greatest
number there is. What has been read is never more than the number as a whole, and that one fits.

Only parts that are not negative can be typed back. A negative part is printed as its two's
complement, which is too large for a part.

## Main definitions

* `Hex.SameNumeral`: Digits that differ in case and in the zeros in front alone.
* `Respells`: A way of typing the number that is printed.

## Theorems

* `Hex.valueOf_of_sameNumeral`: Such digits stand for the same number.
* `trimBlanks_around`: Trimming leaves what is between blanks.
* `stripHexMarks_append`: A mark is dropped and the digits stay.
* `IntegerRange.read_digits`: Digits are read as the number that they stand for, if it fits.
* `Address.parsePart_of_respells`: A part is read however it has been typed.
* `Address.parse_respelled`: So is an address.
-/

namespace Disasm86

namespace Hex

/-- The same digits, but for their case and the zeros in front of them. -/
def SameNumeral (cs ds : List Char) : Prop :=
  (cs.map Char.toUpper).dropWhile (· = '0') = (ds.map Char.toUpper).dropWhile (· = '0')

instance (cs ds : List Char) : Decidable (SameNumeral cs ds) := inferInstanceAs (Decidable (_ = _))

/-- A digit by the number of its character. -/
theorem value?_eq (c : Char) : value? c =
    if 48 ≤ c.toNat ∧ c.toNat ≤ 57 then some (c.toNat - 48)
    else if 97 ≤ c.toNat ∧ c.toNat ≤ 102 then some (c.toNat - 97 + 10)
    else if 65 ≤ c.toNat ∧ c.toNat ≤ 70 then some (c.toNat - 65 + 10)
    else none := rfl

/-- The letters of the one case are 32 apart from those of the other. -/
theorem toNat_toUpper (c : Char) : c.toUpper.toNat
    = if 97 ≤ c.toNat ∧ c.toNat ≤ 122 then c.toNat - 32 else c.toNat := by
  unfold Char.toUpper
  split
  · rename_i hlower
    have hletter : 97 ≤ c.toNat ∧ c.toNat ≤ 122 := hlower
    -- What is added is the difference of the cases, which is negative and wraps.
    have hsum : (c.val + ('A'.val - 'a'.val)).toNat = (c.toNat + 4294967264) % 4294967296 := by
      rw [UInt32.toNat_add]
      rfl
    rw [if_pos hletter]
    refine hsum.trans ?_
    omega
  · rename_i hother
    have hletter : ¬ (97 ≤ c.toNat ∧ c.toNat ≤ 122) := hother
    rw [if_neg hletter]

/-- A digit has its value in either case. -/
theorem value?_toUpper (c : Char) : value? c.toUpper = value? c := by
  rw [value?_eq, value?_eq, toNat_toUpper]
  grind

theorem value?_lt {c : Char} {d : Nat} (h : value? c = some d) : d < 16 := by
  rw [value?_eq] at h
  grind

/-- So a numeral has its value in either case, too. -/
theorem valueOf_map_toUpper (acc : Nat) (cs : List Char) :
    valueOf acc (cs.map Char.toUpper) = valueOf acc cs := by
  simp only [valueOf, List.foldl_map, value?_toUpper]

/-- Zeros in front add nothing. -/
theorem valueOf_dropWhile_zero (cs : List Char) :
    valueOf 0 (cs.dropWhile (· = '0')) = valueOf 0 cs := by
  induction cs with
  | nil => rfl
  | cons c cs ih =>
      by_cases hc : c = '0'
      · rw [List.dropWhile_cons_of_pos (by simpa using hc), ih, hc]
        rfl
      · rw [List.dropWhile_cons_of_neg (by simpa using hc)]

/-- What has been read is at most the number as a whole. -/
theorem le_valueOf (acc : Nat) (cs : List Char) : acc ≤ valueOf acc cs := by
  induction cs generalizing acc with
  | nil => exact Nat.le_refl acc
  | cons c cs ih =>
      have hrest := ih (acc * 16 + (value? c).getD 0)
      simp only [valueOf, List.foldl_cons] at hrest ⊢
      omega

variable {cs ds : List Char}

/-- Numerals that are the same up to case and zeros have the same value. -/
theorem valueOf_of_sameNumeral (h : SameNumeral cs ds) : valueOf 0 ds = valueOf 0 cs := by
  have hvalue := congrArg (valueOf 0) h
  rw [valueOf_dropWhile_zero, valueOf_dropWhile_zero, valueOf_map_toUpper,
    valueOf_map_toUpper] at hvalue
  exact hvalue.symm

/-- A character is a zero in front or stands for one of the digits behind them. -/
theorem isSome_value?_of_sameNumeral (h : SameNumeral cs ds) (hcs : ∀ c ∈ cs, (value? c).isSome)
    {d : Char} (hd : d ∈ ds) : (value? d).isSome := by
  rw [← value?_toUpper]
  have hmem : d.toUpper ∈ ds.map Char.toUpper := List.mem_map_of_mem hd
  rw [← List.takeWhile_append_dropWhile (p := (· = '0')) (l := ds.map Char.toUpper),
    List.mem_append] at hmem
  -- What is dropped from the front is zeros, and the rest is the same as on the other side.
  rcases hmem with hzero | hdigit
  · have heq := List.mem_takeWhile_imp hzero
    rw [of_decide_eq_true heq]
    rfl
  · rw [← h] at hdigit
    rcases List.mem_map.mp ((List.dropWhile_sublist _).mem hdigit) with ⟨c, hc, heq⟩
    rw [← heq, value?_toUpper]
    exact hcs c hc

/-- Digits and blanks lie apart. -/
theorem isBlank_eq_false {c : Char} (h : (value? c).isSome) : isBlank c = false := by
  have hrange : 48 ≤ c.toNat ∧ c.toNat ≤ 57 ∨ 97 ≤ c.toNat ∧ c.toNat ≤ 102
      ∨ 65 ≤ c.toNat ∧ c.toNat ≤ 70 := by
    rw [value?_eq] at h
    grind
  unfold isBlank
  simp only [Bool.or_eq_false_iff, Bool.and_eq_false_iff, decide_eq_false_iff_not,
    beq_eq_false_iff_ne]
  omega

end Hex

/-- `typed` is a way of typing the number that is printed as `printed`: digits that differ from the
    printed ones in their case and in the zeros in front alone, one mark before them or none, and
    around it spaces or whatever else is blank. There is at least one digit. -/
inductive Respells (printed : String) : String → Prop
  | intro (front mark digits back : String) (hfront : ∀ c ∈ front.toList, isBlank c)
      (hmark : mark ∈ ["", "0x", "0X"]) (hdigits : Hex.SameNumeral printed.toList digits.toList)
      (hne : digits ≠ "") (hback : ∀ c ∈ back.toList, isBlank c) :
      Respells printed (front ++ mark ++ digits ++ back)

section Characters

variable {front cs back : List Char}

/-- Nothing is blank inside, so blanks are dropped up to it from both ends. -/
theorem trimBlanks_around (hfront : ∀ c ∈ front, isBlank c) (hcs : ∀ c ∈ cs, isBlank c = false)
    (hback : ∀ c ∈ back, isBlank c) : trimBlanks (front ++ cs ++ back) = cs := by
  -- Dropping stops at once at something that is not blank.
  have hstays : ∀ (ds es : List Char), ds ≠ [] → (∀ c ∈ ds, isBlank c = false) →
      (ds ++ es).dropWhile isBlank = ds ++ es := by
    intro ds es hne hds
    cases ds with
    | nil => exact absurd rfl hne
    | cons d ds =>
        have hd := hds d List.mem_cons_self
        exact List.dropWhile_cons_of_neg (by simp [hd])
  unfold trimBlanks
  rw [List.append_assoc, List.dropWhile_append_of_pos hfront]
  -- From behind it is the same, with everything reversed. If nothing is inside, the blanks in front
  -- meet those behind.
  by_cases hne : cs = []
  · rw [hne, List.nil_append, List.dropWhile_eq_nil_iff.mpr hback]
    rfl
  · have hback' : ∀ c ∈ back.reverse, isBlank c := fun c hc => hback c (List.mem_reverse.mp hc)
    have hcs' : ∀ c ∈ cs.reverse, isBlank c = false := fun c hc => hcs c (List.mem_reverse.mp hc)
    have hend := hstays cs.reverse [] (by simpa using hne) hcs'
    rw [List.append_nil] at hend
    rw [hstays cs back hne hcs, List.reverse_append, List.dropWhile_append_of_pos hback', hend,
      List.reverse_reverse]

/-- A mark is recognized by its letter, so without the letter nothing is dropped. -/
theorem dropMark_of_notMem {a b : Char} (h : b ∉ cs) : dropMark a b cs = cs := by
  cases cs with
  | nil => rfl
  | cons c cs =>
      cases cs with
      | nil => rfl
      | cons d cs =>
          have hd : d ≠ b := fun heq => h (by simp [heq])
          rw [dropMark, if_neg (fun hboth => hd hboth.2)]

/-- A mark in front is dropped, and so is the next one behind it. -/
theorem dropMark_self (a b : Char) (cs : List Char) :
    dropMark a b (a :: b :: cs) = dropMark a b cs := by
  rw [dropMark, if_pos ⟨rfl, rfl⟩]

/-- A mark of either spelling is dropped, and the digits behind it stay. -/
theorem stripHexMarks_append {mark : String} (hmark : mark ∈ ["", "0x", "0X"])
    (hcs : ∀ c ∈ cs, (Hex.value? c).isSome) : stripHexMarks (mark.toList ++ cs) = cs := by
  have hlower : 'x' ∉ cs := fun hx => by cases hcs _ hx
  have hupper : 'X' ∉ cs := fun hx => by cases hcs _ hx
  unfold stripHexMarks
  simp only [List.mem_cons, List.not_mem_nil, or_false] at hmark
  rcases hmark with rfl | rfl | rfl
  · exact (congrArg _ (dropMark_of_notMem hlower)).trans (dropMark_of_notMem hupper)
  · have hdrop : dropMark '0' 'x' ("0x".toList ++ cs) = cs :=
      (dropMark_self '0' 'x' cs).trans (dropMark_of_notMem hlower)
    rw [hdrop, dropMark_of_notMem hupper]
  · -- The lower-case mark is looked for first and is not there.
    have hkeep : dropMark '0' 'x' ("0X".toList ++ cs) = "0X".toList ++ cs := by
      refine dropMark_of_notMem ?_
      simpa using hlower
    rw [hkeep]
    exact (dropMark_self '0' 'X' cs).trans (dropMark_of_notMem hupper)

/-- A mark is made of characters that mean nothing else in an address. -/
theorem mem_hexMark {mark : String} (hmark : mark ∈ ["", "0x", "0X"]) {c : Char}
    (hc : c ∈ mark.toList) : isBlank c = false ∧ c ≠ ':' := by
  -- Three characters can stand in a mark.
  have hletter : c = '0' ∨ c = 'x' ∨ c = 'X' := by
    simp only [List.mem_cons, List.not_mem_nil, or_false] at hmark
    rcases hmark with rfl | rfl | rfl
    · simp at hc
    · have hone : c = '0' ∨ c = 'x' := by simpa using hc
      exact hone.imp_right Or.inl
    · have hone : c = '0' ∨ c = 'X' := by simpa using hc
      exact hone.imp_right Or.inr
  rcases hletter with rfl | rfl | rfl <;> decide

/-- The text is split at its first colon. -/
theorem splitAtColon_append (h : ':' ∉ cs) (ds : List Char) :
    splitAtColon (cs ++ ':' :: ds) = (cs, some ds) := by
  induction cs with
  | nil => rfl
  | cons c cs ih =>
      rw [List.mem_cons, not_or] at h
      rw [List.cons_append, splitAtColon, if_neg (fun heq => h.1 heq.symm), ih h.2]

/-- Without a colon there is one part. -/
theorem splitAtColon_of_notMem (h : ':' ∉ cs) : splitAtColon cs = (cs, none) := by
  induction cs with
  | nil => rfl
  | cons c cs ih =>
      rw [List.mem_cons, not_or] at h
      rw [splitAtColon, if_neg (fun heq => h.1 heq.symm), ih h.2]

end Characters

namespace IntegerRange

variable {range : IntegerRange} {cs : List Char}

/-- Digits are read up to the number that they stand for. The induction goes from digit to digit
    and uses that no number on the way is greater than the last one. -/
theorem readUp_digits {acc : Nat} (hcs : ∀ c ∈ cs, (Hex.value? c).isSome)
    (hfits : (Hex.valueOf acc cs : Int) ≤ range.greatest) :
    readUp range 16 acc cs = .ok (Hex.valueOf acc cs : Int) := by
  induction cs generalizing acc with
  | nil => rfl
  | cons c cs ih =>
      rcases Option.isSome_iff_exists.mp (hcs c List.mem_cons_self) with ⟨d, hd⟩
      have hstep : Hex.valueOf acc (c :: cs) = Hex.valueOf (acc * 16 + d) cs := by
        rw [Hex.valueOf, List.foldl_cons, hd, Option.getD_some]
        rfl
      -- The limit holds for the number that is read last, so it holds for this one.
      have hle := Hex.le_valueOf (acc * 16 + d) cs
      rw [hstep] at hfits ⊢
      have hdigit : (Hex.value? c).filter (· < 16) = some d := by
        rw [hd, Option.filter_some, if_pos (decide_eq_true (Hex.value?_lt hd))]
      have hnext : (acc : Int) * (16 : Nat) + d = ((acc * 16 + d : Nat) : Int) := by
        push_cast
        rfl
      have hrest := ih (fun e he => hcs e (List.mem_cons_of_mem _ he)) hfits
      simp only [readUp, hdigit, hnext]
      rw [if_neg (by omega), hrest]

/-- Digits are read as the number that they stand for, if it fits. There is no sign among them. -/
theorem read_digits (hne : cs ≠ []) (hcs : ∀ c ∈ cs, (Hex.value? c).isSome)
    (hfits : (Hex.valueOf 0 cs : Int) ≤ range.greatest) :
    read range 16 cs = .ok (Hex.valueOf 0 cs : Int) := by
  have hplus : '+' ∉ cs := fun h => by cases hcs _ h
  have hminus : '-' ∉ cs := fun h => by cases hcs _ h
  rw [← readUp_digits hcs hfits]
  unfold read
  split
  · exact absurd rfl hne
  · exact absurd List.mem_cons_self hplus
  · exact absurd List.mem_cons_self hminus
  · exact absurd List.mem_cons_self hplus
  · exact absurd List.mem_cons_self hminus
  · rfl

end IntegerRange

namespace Address

variable {w : Int32} {typed : String}

/-- A word that is not negative is printed as itself. -/
theorem toNat_toUInt32 (hw : 0 ≤ w.toInt) : (w.toUInt32.toNat : Int) = w.toInt := by
  have h := BitVec.toInt_eq_toNat_cond w.toBitVec
  have hlt := w.toUInt32.toNat_lt
  change w.toInt = _ at h
  change _ < 4294967296 at hlt
  change ((w.toBitVec.toNat : Nat) : Int) = _
  split at h
  · exact h.symm
  · omega

/-- A part is read however it has been typed, and there is no colon in it. -/
theorem parsePart_of_respells (hw : 0 ≤ w.toInt) (h : Respells (wordText w) typed) :
    parsePart typed.toList = .ok w ∧ ':' ∉ typed.toList := by
  rcases h with ⟨front, mark, digits, back, hfront, hmark, hdigits, hne, hback⟩
  have hall : ∀ c ∈ digits.toList, (Hex.value? c).isSome := fun c hc =>
    Hex.isSome_value?_of_sameNumeral hdigits (fun _ => Hex.isSome_value?_of_mem_upper) hc
  -- Neither the mark nor the digits have a blank or a colon among them.
  have hinner : ∀ c ∈ mark.toList ++ digits.toList, isBlank c = false := by
    intro c hc
    rcases List.mem_append.mp hc with hc | hc
    · exact (mem_hexMark hmark hc).1
    · exact Hex.isBlank_eq_false (hall c hc)
  -- What is typed stands for the word itself, which fits since it is a word.
  have hvalue : (Hex.valueOf 0 digits.toList : Int) = w.toInt := by
    rw [Hex.valueOf_of_sameNumeral hdigits, wordText, Hex.valueOf_upper, toNat_toUInt32 hw]
  have hfits : (Hex.valueOf 0 digits.toList : Int) ≤ IntegerRange.signed32.greatest := by
    rw [hvalue]
    exact Int32.toInt_le w
  have hchars : (front ++ mark ++ digits ++ back).toList
      = front.toList ++ (mark.toList ++ digits.toList) ++ back.toList := by
    simp
  constructor
  · have hread := IntegerRange.read_digits (by simpa using hne) hall hfits
    rw [parsePart, hchars, trimBlanks_around hfront hinner hback,
      stripHexMarks_append hmark hall, hread]
    simp only [hvalue, Int32.ofInt_toInt]
  · rw [hchars]
    intro hcolon
    simp only [List.mem_append] at hcolon
    rcases hcolon with (hcolon | hcolon | hcolon) | hcolon
    · exact absurd (hfront _ hcolon) (by decide)
    · exact (mem_hexMark hmark hcolon).2 rfl
    · exact absurd (hall _ hcolon) (by decide)
    · exact absurd (hback _ hcolon) (by decide)

/-- What is printed is one of the ways of typing it. -/
theorem respells_wordText (w : Int32) : Respells (wordText w) (wordText w) := by
  -- At least one digit is printed, even for zero.
  have hne : wordText w ≠ "" := by
    intro hempty
    rcases Hex.toList_upper 4 w.toUInt32.toNat with ⟨k, hk⟩
    rw [← wordText, hempty] at hk
    simp [Nat.toDigits_ne_nil] at hk
  have hself := Respells.intro "" "" (wordText w) "" (by simp) (by decide) rfl hne (by simp)
  simpa using hself

variable {a : Address}

theorem text_eq (h : 0 ≤ a.offset.toInt) :
    a.text = wordText a.segment ++ ":" ++ wordText a.offset := by
  rw [text, if_pos (isSomewhere_of_nonneg h)]

/-- Two parts that have been typed with a colon between them are read as the address. -/
theorem parse_parts (hsegment : 0 ≤ a.segment.toInt) (hoffset : 0 ≤ a.offset.toInt)
    {segment offset : String} (hs : Respells (wordText a.segment) segment)
    (ho : Respells (wordText a.offset) offset) : parse (segment ++ ":" ++ offset) = .ok a := by
  rcases parsePart_of_respells hsegment hs with ⟨hparseSegment, hcolon⟩
  have hparseOffset := (parsePart_of_respells hoffset ho).1
  have hchars : (segment ++ ":" ++ offset).toList
      = segment.toList ++ ':' :: offset.toList := by
    simp
  rw [parse, hchars, parseChars, splitAtColon_append hcolon]
  simp only [hparseSegment, hparseOffset]
  rfl

/-- An address whose parts are not negative is read from what it is printed as. The same holds for
    every way of typing its parts, and in segment zero the offset alone is enough. Parts that are
    negative are left out: their digits are those of a number that is too great to be read. -/
theorem parse_respelled (hsegment : 0 ≤ a.segment.toInt) (hoffset : 0 ≤ a.offset.toInt) :
    a.text = wordText a.segment ++ ":" ++ wordText a.offset
      ∧ parse a.text = .ok a
      ∧ (∀ segment offset, Respells (wordText a.segment) segment →
          Respells (wordText a.offset) offset → parse (segment ++ ":" ++ offset) = .ok a)
      ∧ (a.segment = 0 → ∀ offset, Respells (wordText a.offset) offset →
          parse offset = .ok a) := by
  refine ⟨text_eq hoffset, ?_, ?_, ?_⟩
  · rw [text_eq hoffset]
    exact parse_parts hsegment hoffset (respells_wordText _) (respells_wordText _)
  · intro segment offset hs ho
    exact parse_parts hsegment hoffset hs ho
  · intro hzero offset ho
    -- Without a colon the whole text is the offset.
    rcases parsePart_of_respells hoffset ho with ⟨hparse, hcolon⟩
    rw [parse, parseChars, splitAtColon_of_notMem hcolon]
    simp only [hparse]
    rw [← hzero]
    rfl

/-- More digits than are padded to, letters of either case, both marks, zeros and blanks. -/
theorem parse_respelled_marked : parse "0000:ABCDE" = .ok ⟨0, 0xABCDE⟩
    ∧ parse " 0X0:0x00aBcDe  " = .ok ⟨0, 0xABCDE⟩ ∧ parse "0x00aBcDe  " = .ok ⟨0, 0xABCDE⟩ := by
  have hsegment : Respells (wordText 0) " 0X0" :=
    .intro " " "0X" "0" "" (List.all_eq_true.mp (by decide)) (by decide) (by decide) (by decide)
      (List.all_eq_true.mp (by decide))
  have hoffset : Respells (wordText 0xABCDE) "0x00aBcDe  " :=
    .intro "" "0x" "00aBcDe" "  " (List.all_eq_true.mp (by decide)) (by decide) (by decide)
      (by decide) (List.all_eq_true.mp (by decide))
  rcases parse_respelled (a := ⟨0, 0xABCDE⟩) (by decide) (by decide) with ⟨-, htext, hboth, halone⟩
  exact ⟨htext, hboth _ _ hsegment hoffset, halone rfl _ hoffset⟩

end Address

end Disasm86
