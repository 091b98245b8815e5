import Disasm86.Proofs.Marking

/-!
# Every History of a Byte Map

A byte map starts empty and is changed by `mark` alone. Seen from outside it is a list of
ranges that share no byte, each with a kind: the ranges that have been granted so far. A
request is granted if it is for a range, asks for a kind and is clear of all the others, and
whatever can be read from the map can be read from the list.

`Holds` ties the two together byte by byte, and is what a request keeps. Only the count needs
a look at how the marks are stored: they are entries of a tree, and a range adds as many
entries as it has bytes because none of its bytes had one that counted. `count_insert` says
so for one byte, and the walk over the range follows.

The end of a range is an address, so a range never reaches past the 32-bit offsets. That is
all that is known of the requests, and all that is needed.

## Main definitions

* `ByteMap.Request`: A call that asks for a range to be marked.
* `ByteMap.ofHistory`: The map that a list of requests leaves.
* `ByteMap.granted`: Those of the requests that succeed.
* `ByteMap.Holds`: The bytes of a map are those of some ranges.
* `ByteMap.Refines`: What can be read from a map, and what further requests come to.

## Theorems

* `mark_of_isProper`: A proper request fails at a typed byte or is carried out.
* `count_put`: A range counts with all its bytes.
* `Holds.granted`: A request that is granted adds its range.
* `holds_ofHistory`: A map holds the ranges that it has granted.
* `Holds.refines`: The ranges that a map holds decide everything else.
* `refines_ofHistory`: Every history leaves a map that refines its granted ranges.
-/

namespace Disasm86

namespace ByteMap

/-- A call that asks for the bytes from `start` to just before `stop` to be marked. -/
structure Request where
  start : Address
  stop : Address
  kind : ByteKind
deriving DecidableEq

namespace Request

/-- The byte `a` is one of those that the request is for. -/
def Covers (q : Request) (a : Address) : Prop :=
  a.segment = q.start.segment ∧ q.start.offset.toInt ≤ a.offset.toInt
    ∧ a.offset.toInt < q.stop.offset.toInt

instance (q : Request) (a : Address) : Decidable (q.Covers a) :=
  inferInstanceAs (Decidable (_ ∧ _ ∧ _))

/-- The ends of the request make a range, and there is a kind to give it. -/
def IsProper (q : Request) : Prop :=
  q.start.segment = q.stop.segment ∧ 0 ≤ q.start.offset.toInt
    ∧ q.start.offset.toInt < q.stop.offset.toInt ∧ q.kind ≠ .unknown

/-- Two requests have no byte in common. -/
def Clear (q p : Request) : Prop := ∀ a, p.Covers a → ¬ q.Covers a

def size (q : Request) : Nat := spanSize q.start q.stop

/-- The number of bytes of all requests together. -/
def totalSize : List Request → Nat
  | [] => 0
  | q :: qs => q.size + totalSize qs

theorem totalSize_append (qs ps : List Request) :
    totalSize (qs ++ ps) = totalSize qs + totalSize ps := by
  induction qs with
  | nil => simp [totalSize]
  | cons q qs ih => simp [totalSize, ih, Nat.add_assoc]

variable {q : Request} {a : Address}

/-- The bytes of a proper request reach from its start up to its end. -/
theorem IsProper.toInt_add_size (h : q.IsProper) :
    q.start.offset.toInt + q.size = q.stop.offset.toInt := by
  have hlt := h.2.2.1
  unfold size spanSize
  omega

/-- And its end is a word, so nothing wraps. -/
theorem IsProper.toInt_add_size_lt (h : q.IsProper) :
    q.start.offset.toInt + q.size < 0x80000000 := by
  rw [h.toInt_add_size]
  exact q.stop.offset.toInt_lt

/-- The bytes of a proper request make up a span. -/
theorem IsProper.spans_iff (h : q.IsProper) : q.start.Spans q.size a ↔ q.Covers a := by
  unfold Address.Spans Covers
  rw [h.toInt_add_size]

end Request

/-- The map behind a request. A refused request leaves the map as it was. -/
def after (m : ByteMap) (q : Request) : ByteMap :=
  match m.mark q.start q.stop q.kind with
  | .ok m' => m'
  | .error _ => m

/-- The map that a list of requests leaves, from no known byte on. -/
def ofHistory (history : List Request) : ByteMap := history.foldl after empty

/-- The requests of a list that succeed, when they are made one after the other. -/
def grantedFrom (m : ByteMap) : List Request → List Request
  | [] => []
  | q :: qs =>
    match m.mark q.start q.stop q.kind with
    | .ok m' => q :: m'.grantedFrom qs
    | .error _ => m.grantedFrom qs

/-- The requests of a history that succeed, oldest first. -/
def granted (history : List Request) : List Request := empty.grantedFrom history

/-- The known bytes of a map are those of the ranges, which share none of them. This is the
    invariant that one request keeps, and all that `Refines` says follows from it. -/
structure Holds (m : ByteMap) (ranges : List Request) : Prop where
  proper : ∀ q ∈ ranges, q.IsProper
  apart : ranges.Pairwise Request.Clear
  /-- A byte has the kind of its range, and leads it if it is the first. -/
  inside : ∀ q ∈ ranges, ∀ a, q.Covers a → m.get a = ⟨q.kind, a = q.start⟩
  outside : ∀ a, (∀ q ∈ ranges, ¬ q.Covers a) → m.get a = ⟨.unknown, false⟩
  /-- The bytes of a kind are as many as its ranges have together. -/
  counted : ∀ kind, kind ≠ .unknown →
    m.count kind = Request.totalSize (ranges.filter (·.kind = kind))

/-- The map answers as the list of its ranges does, and a further request comes to what the
    list says. -/
structure Refines (m : ByteMap) (ranges : List Request) : Prop extends Holds m ranges where
  /-- A request is granted if it is proper and its range is clear of all others. -/
  granted_iff : ∀ q : Request, (∃ m', m.mark q.start q.stop q.kind = .ok m') ↔
    q.IsProper ∧ ∀ p ∈ ranges, q.Clear p
  /-- A request that fails changes no byte. -/
  kept : ∀ (q : Request) cause, m.mark q.start q.stop q.kind = .error cause →
    ∀ a, (m.after q).get a = m.get a
  /-- One that fails because of typed bytes alone reports the lowest of them. -/
  reported : ∀ q : Request, q.IsProper → (¬ ∀ p ∈ ranges, q.Clear p) →
    ∃ a, m.mark q.start q.stop q.kind = .error (.alreadyTyped a)
      ∧ q.Covers a ∧ (m.get a).kind ≠ .unknown
      ∧ ∀ b, q.Covers b → (m.get b).kind ≠ .unknown → a.offset.toInt ≤ b.offset.toInt

section Marking

variable {m : ByteMap} {q : Request}

/-- A proper request fails at the first typed byte of its range, or is carried out. -/
theorem mark_of_isProper (m : ByteMap) (h : q.IsProper) :
    m.mark q.start q.stop q.kind = match m.firstTyped? q.start q.size with
      | some a => .error (.alreadyTyped a)
      | none => .ok (m.put q.start q.kind q.size) := by
  rcases h with ⟨hseg, h0, hlt, hkind⟩
  have hrange : ¬ (q.stop.offset ≤ q.start.offset ∨ q.start.offset < 0 ∨ q.kind = .unknown) := by
    simp only [Int32.le_iff_toInt_le, Int32.lt_iff_toInt_lt, Int32.toInt_zero, hkind, or_false]
    omega
  unfold mark
  rw [if_neg (not_not_intro hseg), if_neg hrange]
  rfl

/-- Whatever is granted was proper. -/
theorem isProper_of_mark_eq_ok {m' : ByteMap} (h : m.mark q.start q.stop q.kind = .ok m') :
    q.IsProper := by
  unfold mark at h
  split at h
  · cases h
  · rename_i hseg
    split at h
    · cases h
    · rename_i hrange
      simp only [Int32.le_iff_toInt_le, Int32.lt_iff_toInt_lt, Int32.toInt_zero, not_or] at hrange
      exact ⟨Decidable.not_not.mp hseg, by omega, by omega, hrange.2.2⟩

end Marking

section Counting

variable {m : ByteMap} {a : Address} {kind : ByteKind}

/-- The bytes of a kind are the entries of that kind, as long as unknown bytes are not asked for.
    Those have no entry. -/
theorem count_eq_countP (m : ByteMap) (hkind : kind ≠ .unknown) :
    m.count kind = m.marks.toList.countP fun e => e.2.kind = kind := by
  have hcount : m.count kind = (m.marks.filter fun _ mark => mark.kind = kind).size := by
    cases kind with
    | unknown => exact absurd rfl hkind
    | padding => rfl
    | code => rfl
    | data => rfl
  rw [hcount, ← Std.TreeMap.length_toList, Std.TreeMap.toList_filter, List.countP_eq_length_filter]

/-- A byte of which nothing was known counts for its kind and for no other. -/
theorem count_insert (hfree : (m.get a).kind = .unknown) (hkind : kind ≠ .unknown)
    (mark : ByteMark) : (ByteMap.mk (m.marks.insert a mark)).count kind
      = (if mark.kind = kind then 1 else 0) + m.count kind := by
  -- If the byte had an entry before, it was one that did not count.
  have hold : m.marks.toList.countP (fun e => decide (e.2.kind = kind) && decide ¬(a == e.1))
      = m.marks.toList.countP fun e => e.2.kind = kind := by
    refine List.countP_congr fun e he => ?_
    have hentry := Std.TreeMap.mem_toList_iff_getElem?_eq_some.mp he
    simp only [Bool.and_eq_true, decide_eq_true_eq, beq_iff_eq, and_iff_left_iff_imp]
    intro hcounts heq
    rw [get, Std.TreeMap.getD_eq_getD_getElem?, heq, hentry, Option.getD_some, hcounts] at hfree
    exact hkind hfree
  -- The entries behind an insertion are the new one and those with other addresses.
  rw [count_eq_countP _ hkind, count_eq_countP _ hkind,
    List.Perm.countP_eq _ Std.TreeMap.toList_insert_perm, List.countP_cons, List.countP_filter,
    hold, Nat.add_comm]
  simp only [decide_eq_true_eq]

/-- The bytes behind the first of a free span are still free once the first is marked. -/
theorem free_behind {n : Nat} (h0 : 0 ≤ a.offset.toInt) (hn : a.offset.toInt + 1 < 0x80000000)
    (hfree : ∀ b, a.Spans (n + 1) b → (m.get b).kind = .unknown) (mark : ByteMark) :
    ∀ b, (a.advance 1).Spans n b →
      ((ByteMap.mk (m.marks.insert a mark)).get b).kind = .unknown := by
  have h1 : (a.advance 1).offset.toInt = a.offset.toInt + 1 := Address.toInt_advance h0 hn
  intro b hb
  have hne : b ≠ a := by
    rintro rfl
    have hbehind := hb.2.1
    omega
  rw [get_insert, if_neg hne]
  exact hfree b ((Address.spans_succ_iff h0 hn).mpr (Or.inr hb))

/-- By induction on the number of bytes. Each was free, so it counts once. -/
theorem count_fill (mark : ByteMark) {n : Nat} (h0 : 0 ≤ a.offset.toInt)
    (hn : a.offset.toInt + n < 0x80000000)
    (hfree : ∀ b, a.Spans n b → (m.get b).kind = .unknown) (hkind : kind ≠ .unknown) :
    (m.fill a mark n).count kind = (if mark.kind = kind then n else 0) + m.count kind := by
  induction n generalizing m a with
  | zero => simp [fill]
  | succ n ih =>
      have h1 : (a.advance 1).offset.toInt = a.offset.toInt + 1 :=
        Address.toInt_advance h0 (by omega)
      rw [fill, ih (by omega) (by omega) (free_behind h0 (by omega) hfree mark),
        count_insert (hfree a (Address.spans_self n.succ_pos)) hkind]
      split <;> omega

/-- A range of which nothing was known counts with all its bytes. -/
theorem count_put {n : Nat} {given : ByteKind} (h0 : 0 ≤ a.offset.toInt)
    (hn : a.offset.toInt + n < 0x80000000)
    (hfree : ∀ b, a.Spans n b → (m.get b).kind = .unknown) (hkind : kind ≠ .unknown) :
    (m.put a given n).count kind = (if given = kind then n else 0) + m.count kind := by
  cases n with
  | zero => simp [put]
  | succ n =>
      have h1 : (a.advance 1).offset.toInt = a.offset.toInt + 1 :=
        Address.toInt_advance h0 (by omega)
      rw [put, count_fill _ (by omega) (by omega) (free_behind h0 (by omega) hfree _) hkind,
        count_insert (hfree a (Address.spans_self n.succ_pos)) hkind]
      simp only []
      split <;> omega

end Counting

namespace Holds

variable {m m' : ByteMap} {ranges : List Request} {q : Request} {a : Address}

/-- An empty map holds no range. -/
theorem empty : Holds ByteMap.empty [] where
  proper := by simp
  apart := List.Pairwise.nil
  inside := by simp
  outside := fun a _ => get_empty a
  counted := by
    intro kind hkind
    rw [count_eq_countP _ hkind]
    simp [ByteMap.empty, Request.totalSize]

/-- A byte is unknown if it lies in no range. -/
theorem kind_eq_unknown_iff (h : Holds m ranges) :
    (m.get a).kind = .unknown ↔ ∀ q ∈ ranges, ¬ q.Covers a := by
  constructor
  · intro hunknown q hq hcovers
    rw [h.inside q hq a hcovers] at hunknown
    exact (h.proper q hq).2.2.2 hunknown
  · intro hnone
    rw [h.outside a hnone]

/-- The bytes of a request are unknown if the request is clear of all ranges. -/
theorem free_iff (h : Holds m ranges) :
    (∀ a, q.Covers a → (m.get a).kind = .unknown) ↔ ∀ p ∈ ranges, q.Clear p := by
  simp only [h.kind_eq_unknown_iff, Request.Clear]
  constructor
  · exact fun hfree p hp a hpa hqa => hfree a hqa p hp hpa
  · exact fun hclear a hqa p hp hpa => hclear p hp a hpa hqa

/-- No byte of a request is typed if it is clear of all ranges. -/
theorem firstTyped?_eq_none_iff (h : Holds m ranges) (hq : q.IsProper) :
    m.firstTyped? q.start q.size = none ↔ ∀ p ∈ ranges, q.Clear p := by
  rw [ByteMap.firstTyped?_eq_none_iff m _ _ hq.2.1 hq.toInt_add_size_lt, ← h.free_iff]
  simp only [hq.spans_iff]

/-- A request is granted if it is proper and clear of all ranges. -/
theorem mark_eq_ok_iff (h : Holds m ranges) : m.mark q.start q.stop q.kind = .ok m' ↔
    q.IsProper ∧ (∀ p ∈ ranges, q.Clear p) ∧ m' = m.put q.start q.kind q.size := by
  constructor
  · intro hok
    have hq := isProper_of_mark_eq_ok hok
    rw [mark_of_isProper m hq] at hok
    -- A typed byte would have made it fail.
    cases hfirst : m.firstTyped? q.start q.size with
    | some b => simp only [hfirst, reduceCtorEq] at hok
    | none =>
        simp only [hfirst, Except.ok.injEq] at hok
        exact ⟨hq, (h.firstTyped?_eq_none_iff hq).mp hfirst, hok.symm⟩
  · intro hgranted
    rcases hgranted with ⟨hq, hclear, rfl⟩
    rw [mark_of_isProper m hq, (h.firstTyped?_eq_none_iff hq).mpr hclear]

/-- A request that is granted adds its range to those that the map holds. -/
theorem granted (h : Holds m ranges) (hok : m.mark q.start q.stop q.kind = .ok m') :
    Holds m' (ranges ++ [q]) := by
  rcases h.mark_eq_ok_iff.mp hok with ⟨hq, hclear, rfl⟩
  have hget : ∀ a, (m.put q.start q.kind q.size).get a
      = if q.start.Spans q.size a then ⟨q.kind, a = q.start⟩ else m.get a :=
    fun a => get_put m q.start a q.kind q.size hq.2.1 hq.toInt_add_size_lt
  simp only [hq.spans_iff] at hget
  -- The new range is the last one, and it has no byte in common with any other.
  refine ⟨?_, ?_, ?_, ?_, ?_⟩
  · intro p hp
    rcases List.mem_append.mp hp with hp | hp
    · exact h.proper p hp
    · rw [List.mem_singleton.mp hp]
      exact hq
  · refine List.pairwise_append.mpr ⟨h.apart, List.pairwise_singleton _ _, fun p hp p' hp' => ?_⟩
    rw [List.mem_singleton.mp hp']
    exact fun a hqa hpa => hclear p hp a hpa hqa
  · intro p hp a hpa
    rw [hget]
    rcases List.mem_append.mp hp with hp | hp
    · rw [if_neg (hclear p hp a hpa)]
      exact h.inside p hp a hpa
    · rw [List.mem_singleton.mp hp] at hpa ⊢
      rw [if_pos hpa]
  · intro a hnone
    rw [hget, if_neg (hnone q (List.mem_append_right _ List.mem_cons_self))]
    exact h.outside a fun p hp => hnone p (List.mem_append_left _ hp)
  · intro kind hkind
    -- The bytes were free, so the count of their kind grows by all of them.
    have hfree : ∀ b, q.start.Spans q.size b → (m.get b).kind = .unknown := by
      simp only [hq.spans_iff]
      exact h.free_iff.mpr hclear
    rw [count_put hq.2.1 hq.toInt_add_size_lt hfree hkind, h.counted kind hkind,
      List.filter_append, Request.totalSize_append, Nat.add_comm]
    by_cases hsame : q.kind = kind
    · simp [hsame, Request.totalSize]
    · simp [hsame, Request.totalSize]

/-- What the ranges say decides what the map answers. -/
theorem refines (h : Holds m ranges) : m.Refines ranges where
  toHolds := h
  granted_iff := by
    intro q
    simp only [h.mark_eq_ok_iff]
    constructor
    · intro hgranted
      rcases hgranted with ⟨m', hq, hclear, -⟩
      exact ⟨hq, hclear⟩
    · intro hgranted
      exact ⟨_, hgranted.1, hgranted.2, rfl⟩
  kept := by
    intro q cause herror a
    simp only [after, herror]
  reported := by
    intro q hq hblocked
    rw [mark_of_isProper m hq]
    cases hfirst : m.firstTyped? q.start q.size with
    -- If no byte of the request is typed, the request is clear.
    | none => exact absurd ((h.firstTyped?_eq_none_iff hq).mp hfirst) hblocked
    | some a =>
        have hsome := firstTyped?_eq_some hq.2.1 hq.toInt_add_size_lt hfirst
        simp only [hq.spans_iff] at hsome
        exact ⟨a, rfl, hsome⟩

/-- A map goes on to hold what it grants, by what one request does to it. -/
theorem foldl_after (h : Holds m ranges) (history : List Request) :
    Holds (history.foldl after m) (ranges ++ m.grantedFrom history) := by
  induction history generalizing m ranges with
  | nil => simpa [grantedFrom] using h
  | cons q qs ih =>
      rw [List.foldl_cons, grantedFrom, after]
      cases hmark : m.mark q.start q.stop q.kind with
      | error cause => exact ih h
      | ok m' =>
          have hnext := ih (h.granted hmark)
          rw [List.append_assoc, List.singleton_append] at hnext
          exact hnext

end Holds

/-- The map that a history leaves holds the ranges it has granted. -/
theorem holds_ofHistory (history : List Request) : Holds (ofHistory history) (granted history) :=
  Holds.empty.foldl_after history

/-- After any requests, a byte map answers as the list of the ranges it has granted does: byte by
    byte, in its counts, and in what it says to the next request. -/
theorem refines_ofHistory (history : List Request) :
    (ofHistory history).Refines (granted history) :=
  (holds_ofHistory history).refines

-- The second request runs into the first range, and the third only touches it.
example : granted [⟨⟨0, 4⟩, ⟨0, 6⟩, .data⟩, ⟨⟨0, 0⟩, ⟨0, 5⟩, .code⟩, ⟨⟨0, 6⟩, ⟨0, 8⟩, .code⟩]
    = [⟨⟨0, 4⟩, ⟨0, 6⟩, .data⟩, ⟨⟨0, 6⟩, ⟨0, 8⟩, .code⟩] := by
  decide

end ByteMap

end Disasm86
