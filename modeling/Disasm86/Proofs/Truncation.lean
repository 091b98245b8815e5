import Disasm86.Proofs.Reading

/-!
# Windows That End Too Early

What decoding says of one window decides what it says of the others with the same
front. An instruction is found in every window that holds all of it and in none that
holds less, and there decoding has run out of bytes. Any other failure was seen in the
bytes that are there, so more of them do not make up for it.

Running out of bytes is therefore the only outcome that more bytes can change, and from
a certain length on it does not occur: twelve bytes are enough for the longest
instruction, and an encoding that is wrong turns out to be so before they are used up.
So a window of that length is as good as a longer one, which is `decode_take`.

## Theorems

* `scanPrefixes_error_append`: A conflict of prefixes lies in the bytes that are there.
* `decode_error_append`: More bytes do not make up for a failure.
* `decode_ne_truncated`: Twelve bytes are enough.
* `decode_take_of_lt`: A window without the whole instruction is too short.
* `decode_take`: Twelve bytes are as good as more.
* `decode_windows`: An instruction, and each failure, in all windows.
-/

namespace Disasm86

variable {context : DecodeContext} {code : List UInt8} {i : Instruction} {e : DecodeError}

/-- A conflict is found at the second prefix of a group. Prefixes never run out. -/
theorem scanPrefixes_error_append {seen : Prefixes} {position : Nat}
    (h : scanPrefixes seen position code = .error e) :
    e ≠ .truncated ∧ ∀ more, scanPrefixes seen position (code ++ more) = .error e := by
  induction code generalizing seen position with
  | nil => cases h
  | cons b bs ih =>
      rw [scanPrefixes] at h
      cases hb : legacyPrefix? b with
      | none => simp only [hb, reduceCtorEq] at h
      | some found =>
          -- The group of the prefix is taken, or scanning goes on behind it.
          cases hadd : seen.add? found with
          | none =>
              simp only [hb, hadd, Except.error.injEq] at h
              rw [← h]
              refine ⟨fun heq => (by cases heq), fun more => ?_⟩
              simp only [List.cons_append, scanPrefixes, hb, hadd]
          | some seen' =>
              simp only [hb, hadd] at h
              rcases ih h with ⟨hne, hmore⟩
              refine ⟨hne, fun more => ?_⟩
              simp only [List.cons_append, scanPrefixes, hb, hadd, hmore]

/-- More bytes behind a window do not make up for a failure, unless decoding has run out
    of bytes. -/
theorem decode_error_append (h : decode context code = .error e) (he : e ≠ .truncated)
    (more : List UInt8) : decode context (code ++ more) = .error e := by
  rw [decode_eq_error_iff] at h ⊢
  rcases h with hscan | ⟨p, c, hscan, hread⟩
  · exact Or.inl ((scanPrefixes_error_append hscan).2 more)
  · rcases scanPrefixes_append hscan with ⟨front, hcode, -, hfront⟩
    refine Or.inr ⟨p, ⟨c.position, c.rest ++ more⟩, ?_,
      (forward_readOperation _).refused hread he more⟩
    -- Reading has failed at an opcode, so the prefixes end where they ended before.
    rcases c with ⟨position, rest⟩
    cases rest with
    | nil =>
        cases hread
        exact absurd rfl he
    | cons b bs =>
        rw [hcode, List.append_assoc]
        exact hfront b bs rfl (bs ++ more)

/-- Four prefixes and eight bytes behind them are all that decoding can ask for. -/
theorem decode_ne_truncated (hroom : 12 ≤ code.length) :
    decode context code ≠ .error .truncated := by
  intro h
  rcases decode_eq_error_iff.mp h with hscan | ⟨p, c, hscan, hread⟩
  · exact (scanPrefixes_error_append hscan).1 rfl
  · rcases scanPrefixes_append hscan with ⟨front, hcode, hpos, -⟩
    have hprefixes := scanPrefixes_count hscan
    have hfour := p.count_le
    have hzero : Prefixes.none.count = 0 := rfl
    rw [hcode, List.length_append] at hroom
    exact (forward_readOperation _).enough (by omega) hread

/-- A window that ends inside an instruction is too short: whatever else could be found
    in it would also be found in the longer window. -/
theorem decode_take_of_lt (h : decode context code = .ok i) {k : Nat} (hk : k < i.length) :
    decode context (code.take k) = .error .truncated := by
  have hcode : code.take k ++ code.drop k = code := List.take_append_drop k code
  cases hshort : decode context (code.take k) with
  | ok j =>
      have hlong := decode_append hshort (code.drop k)
      rw [hcode, h, Except.ok.injEq] at hlong
      have hle := (decode_eq_ok hshort).2.1
      rw [List.length_take, ← hlong] at hle
      omega
  | error e =>
      by_cases he : e = .truncated
      · rw [he]
      · have hlong := decode_error_append hshort he (code.drop k)
        rw [hcode, h] at hlong
        cases hlong

/-- The first bytes of a window decide, if there are twelve of them. -/
theorem decode_take {n : Nat} (hn : 12 ≤ n) (context : DecodeContext) (code : List UInt8) :
    decode context (code.take n) = decode context code := by
  by_cases hall : code.length ≤ n
  · rw [List.take_of_length_le hall]
  · have hcode : code.take n ++ code.drop n = code := List.take_append_drop n code
    have hroom : 12 ≤ (code.take n).length := by
      rw [List.length_take]
      omega
    -- Whatever the front of the window has given, the rest cannot change it.
    cases hfront : decode context (code.take n) with
    | ok i =>
        rw [← decode_append hfront (code.drop n), hcode]
    | error e =>
        have he : e ≠ .truncated := by
          intro heq
          rw [heq] at hfront
          exact decode_ne_truncated hroom hfront
        rw [← decode_error_append hfront he (code.drop n), hcode]

/-- Decoding in all windows. An instruction has one to twelve bytes, which are the front
    of the window; it is found in every window with that front, and in shorter ones
    decoding runs out of bytes. A failure that is not for want of bytes stays when there
    are more, and twelve bytes are never too few. -/
theorem decode_windows (context : DecodeContext) (code : List UInt8) :
    (∀ i, decode context code = .ok i →
      1 ≤ i.length ∧ i.length ≤ 12 ∧ i.length ≤ code.length ∧ i.bytes = code.take i.length
        ∧ (∀ more, decode context (code.take i.length ++ more) = .ok i)
        ∧ ∀ k, k < i.length → decode context (code.take k) = .error .truncated)
      ∧ (∀ e, decode context code = .error e → e ≠ .truncated →
        ∀ more, decode context (code ++ more) = .error e)
      ∧ (12 ≤ code.length → decode context code ≠ .error .truncated) := by
  refine ⟨fun i h => ?_, fun e h he more => decode_error_append h he more, decode_ne_truncated⟩
  rcases decode_eq_ok h with ⟨hpos, hle, hbytes, hmore, hshort⟩
  refine ⟨hpos, hshort, hle, hbytes, fun more => ?_, fun k hk => decode_take_of_lt h hk⟩
  rw [← hbytes]
  exact hmore more

/-- The longest instruction: four prefixes, an addressing byte, a displacement and a
    constant. The address size has to be switched back to a word for it. -/
def longest : List UInt8 := [0xF0, 0x2E, 0x66, 0x67, 0x69, 0x80, 0x34, 0x12, 1, 2, 3, 4]

/-- All twelve bytes of it are needed. -/
theorem decode_windows_longest :
    ∃ i, decode { addressSize := .dword } longest = .ok i ∧ i.length = 12
      ∧ ∀ k, k < 12 → decode { addressSize := .dword } (longest.take k) = .error .truncated := by
  have hlength : (decode { addressSize := .dword } longest).toOption.any (fun i => i.length = 12)
      = true := by
    decide +kernel
  cases h : decode { addressSize := .dword } longest with
  | error e =>
      rw [h] at hlength
      cases hlength
  | ok i =>
      rw [h] at hlength
      have hi : i.length = 12 := of_decide_eq_true hlength
      have hall := ((decode_windows { addressSize := .dword } longest).1 i h).2.2.2.2.2
      rw [hi] at hall
      exact ⟨i, rfl, hi, hall⟩

end Disasm86
