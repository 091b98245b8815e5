import Disasm86.Proofs.Findings
import Disasm86.Proofs.Replay
import Disasm86.Proofs.Shape

/-!
# Broken Blocks

A block breaks off if decoding cannot go on behind its last instruction. It is reported twice
then: the reason at the address where decoding stopped, and the block at its start. Afterwards
the block may be cut, and the finding about it is not touched. The head of the block falls
through to the tail, so it is the tail that is broken from then on, and the finding stays behind
at the start of the head.

So a finding does not give the start of a broken block, but an address in front of it, and all
that lies between is code. The correspondence is one to one at every moment: a cut replaces the
number of the whole block by that of the tail, and a block that is closed as broken comes with
a finding of its own. The numbers of the broken blocks are listed in the order of the findings,
which is the order in which the blocks broke off and not that of their numbers.

## Main definitions

* `Session.breakages`: The findings about broken blocks.
* `Session.Tells`: A finding stands in front of a block.
* `Session.Broken`: The broken blocks by number, each with its finding.

## Theorems

* `Session.Broken.congr`: Nothing changes as long as no block breaks off.
* `Session.Broken.push`: A block that breaks off comes with a finding.
* `Session.Broken.cut`: The tail of a block takes over its finding.
* `Visited.broken`, `Followed.broken`: Following a reference keeps the correspondence.
* `Explored.broken_matched`: Broken blocks and the findings about them correspond.
-/

namespace Disasm86

namespace Session

/-- The findings about broken blocks, oldest first. -/
def breakages (s : Session) : List Diagnostic :=
  s.diagnostics.toList.filter fun d => d.code = .brokenBasicBlock

/-- The block is broken, and the diagnostic stands at its start or in front of it. From there to the
    end of the block all bytes are code. It stands in front of the block after a cut: the finding
    stays where it was, and the broken part is the tail. -/
def Tells (s : Session) (id : Nat) (d : Diagnostic) : Prop :=
  ∃ b, s.blocks.get? id = some b ∧ b.kind = .broken
    ∧ d.location.segment = b.start.segment ∧ d.location.offset.toInt ≤ b.start.offset.toInt
    ∧ ∀ a, a.segment = b.start.segment → d.location.offset.toInt ≤ a.offset.toInt →
        a.offset.toInt < b.stop.offset.toInt → (s.bytes.get a).kind = .code

/-- The broken blocks of a session are those with the listed numbers, and the findings about broken
    blocks tell of them, each of one and in this order. The list is what makes the correspondence
    one to one; a cut changes a number in it and nothing else. -/
structure Broken (s : Session) (ids : List Nat) : Prop where
  nodup : ids.Nodup
  mem_iff : ∀ id, id ∈ ids ↔ ∃ b, s.blocks.get? id = some b ∧ b.kind = .broken
  told : List.Forall₂ s.Tells ids s.breakages
  /-- The reason is reported where the block ends. -/
  ended : ∀ id b, s.blocks.get? id = some b → b.kind = .broken → ∃ d ∈ s.diagnostics.toList,
    d.location = b.stop ∧ d.code ∈ [DiagnosticCode.outOfImage, .invalidInstruction,
      .overlappingInstruction, .ranIntoData]

end Session

section Updates

variable {s s' : Session} {ids : List Nat} {id : Nat} {b whole : Block} {d : Diagnostic}
  {mid : Address} {codes : List DiagnosticCode}

namespace Session.Tells

/-- What was told of a block is still told of it, if the block is the same and code stays code. -/
theorem mono (h : s.Tells id d)
    (hget : ∀ b, b.kind = .broken → s.blocks.get? id = some b → s'.blocks.get? id = some b)
    (hbytes : ∀ a, (s.bytes.get a).kind = .code → (s'.bytes.get a).kind = .code) :
    s'.Tells id d := by
  rcases h with ⟨b, hb, hbroken, hseg, hle, hcode⟩
  exact ⟨b, hget b hbroken hb, hbroken, hseg, hle,
    fun a ha hlo hhi => hbytes a (hcode a ha hlo hhi)⟩

/-- The tail of a block ends where the block ended, and the finding lies in front of it. -/
theorem cut (h : s.Tells id d) (hget : s.blocks.get? id = some whole) (hin : whole.contains mid) :
    ({ s with blocks := s.blocks.cut id whole mid } : Session).Tells s.blocks.size d := by
  rcases h with ⟨b, hb, hbroken, hseg, hle, hcode⟩
  rw [hget, Option.some.injEq] at hb
  subst hb
  rcases Block.contains_iff.mp hin with ⟨hmid, hstart, -⟩
  refine ⟨_, BlockStore.get?_cut_tail hget, hbroken, hseg.trans hmid.symm,
    Int.le_trans hle hstart, fun a ha hlo hhi => ?_⟩
  rw [Block.stop_tailFrom hin] at hhi
  exact hcode a (ha.trans hmid) hlo hhi

end Session.Tells

namespace Session.Broken

/-- Bytes may become code and blocks may be added, as long as no broken one is. -/
theorem congr (h : s.Broken ids)
    (hblocks : ∀ {k c}, c.kind = .broken → (s'.blocks.get? k = some c ↔ s.blocks.get? k = some c))
    (hbytes : ∀ a, (s.bytes.get a).kind = .code → (s'.bytes.get a).kind = .code)
    (hadds : Diagnostics.Adds codes s.diagnostics s'.diagnostics)
    (hcodes : .brokenBasicBlock ∉ codes) : s'.Broken ids where
  nodup := h.nodup
  mem_iff k := by
    rw [h.mem_iff]
    exact exists_congr fun c => ⟨fun hc => ⟨(hblocks hc.2).mpr hc.1, hc.2⟩,
      fun hc => ⟨(hblocks hc.2).mp hc.1, hc.2⟩⟩
  told := by
    unfold breakages
    rw [hadds.filter_code hcodes]
    exact h.told.imp fun k d htells =>
      htells.mono (fun c hc hget => (hblocks hc).mpr hget) hbytes
  ended k c hget hbroken := by
    rcases h.ended k c ((hblocks hbroken).mp hget) hbroken with ⟨d, hd, hwhy⟩
    exact ⟨d, hadds.mem hd, hwhy⟩

/-- Recording a reference adds no block and no finding. -/
theorem record (h : s.Broken ids) (r : Reference) : (s.record r).Broken ids := by
  rcases s.record_stores r with ⟨hbytes, -, hblocks, -, hdiagnostics⟩
  have hadds : Diagnostics.Adds [] s.diagnostics (s.record r).diagnostics := by
    rw [hdiagnostics]
    exact Diagnostics.Adds.refl _ _
  refine h.congr (fun _ => by rw [hblocks]) (fun a ha => ?_) hadds List.not_mem_nil
  rw [hbytes]
  exact ha

/-- Reporting something else leaves the broken blocks and their findings alone. -/
theorem report (h : s.Broken ids) (location : Address) {code : DiagnosticCode} (message : String)
    (hcode : code ≠ .brokenBasicBlock) : (s.report location code message).Broken ids := by
  have hadds : Diagnostics.Adds [code] s.diagnostics (s.report location code message).diagnostics :=
    Diagnostics.adds_report _ _ _ List.mem_cons_self
  refine h.congr (fun _ => Iff.rfl) (fun a ha => ha) hadds fun hmem => ?_
  exact hcode (List.mem_singleton.mp hmem).symm

/-- A broken block that comes new has the next number, and the finding about it comes last. -/
theorem push (h : s.Broken ids) (hblocks : s'.blocks = s.blocks.push b)
    (hbytes : ∀ a, (s.bytes.get a).kind = .code → (s'.bytes.get a).kind = .code)
    (hbreakages : s'.breakages = s.breakages ++ [d]) (htells : s'.Tells s.blocks.size d)
    (hkept : ∀ d ∈ s.diagnostics.toList, d ∈ s'.diagnostics.toList)
    (hended : ∃ d ∈ s'.diagnostics.toList, d.location = b.stop ∧ d.code ∈
      [DiagnosticCode.outOfImage, .invalidInstruction, .overlappingInstruction, .ranIntoData]) :
    s'.Broken (ids ++ [s.blocks.size]) := by
  have hnew : ∀ {k c}, s.blocks.get? k = some c → s'.blocks.get? k = some c := by
    intro k c hget
    rw [hblocks]
    exact BlockStore.get?_push_of_get? hget
  have hcases : ∀ {k c}, s'.blocks.get? k = some c →
      (k = s.blocks.size ∧ c = b) ∨ s.blocks.get? k = some c := by
    intro k c hget
    rw [hblocks] at hget
    exact BlockStore.get?_push_cases hget
  refine ⟨?_, fun k => ?_, ?_, fun k c hget hbroken => ?_⟩
  · -- The next number is greater than all that are in use.
    refine List.nodup_append.mpr ⟨h.nodup, List.nodup_singleton _, fun k hk j hj heq => ?_⟩
    rcases (h.mem_iff k).mp hk with ⟨c, hget, -⟩
    have hlt := BlockStore.lt_size_of_get? hget
    rw [heq, List.mem_singleton.mp hj] at hlt
    omega
  · rw [List.mem_append, h.mem_iff, List.mem_singleton]
    constructor
    · rintro (⟨c, hget, hbroken⟩ | rfl)
      · exact ⟨c, hnew hget, hbroken⟩
      · rcases htells with ⟨c, hget, hbroken, -⟩
        exact ⟨c, hget, hbroken⟩
    · rintro ⟨c, hget, hbroken⟩
      -- A broken block is the new one or one of those from before.
      rcases hcases hget with ⟨hk, -⟩ | hold
      · exact Or.inr hk
      · exact Or.inl ⟨c, hold, hbroken⟩
  · rw [hbreakages]
    refine List.rel_append (h.told.imp fun k d ht => ?_) (.cons htells .nil)
    exact ht.mono (fun c _ hget => hnew hget) hbytes
  · rcases hcases hget with ⟨-, rfl⟩ | hold
    · exact hended
    · rcases h.ended k c hold hbroken with ⟨d, hd, hwhy⟩
      exact ⟨d, hkept d hd, hwhy⟩

/-- The number of a block that is cut gives way to the number of its tail. -/
theorem cut (h : s.Broken ids) (hget : s.blocks.get? id = some whole)
    (hin : whole.contains mid) :
    ({ s with blocks := s.blocks.cut id whole mid } : Session).Broken
      (ids.map fun k => if k = id then s.blocks.size else k) := by
  have hlt : ∀ k ∈ ids, k < s.blocks.size := by
    intro k hk
    rcases (h.mem_iff k).mp hk with ⟨c, hc, -⟩
    exact BlockStore.lt_size_of_get? hc
  refine ⟨?_, fun k => ?_, ?_, fun k c hc hbroken => ?_⟩
  · refine h.nodup.map_on fun k hk j hj heq => ?_
    have hk := hlt k hk
    have hj := hlt j hj
    grind
  · rw [List.mem_map]
    constructor
    · -- The first part of a block that is cut runs on, so it is not broken any more.
      rintro ⟨j, hj, rfl⟩
      rcases (h.mem_iff j).mp hj with ⟨c, hc, hbroken⟩
      by_cases heq : j = id
      · rw [if_pos heq]
        rw [heq, hget, Option.some.injEq] at hc
        rw [← hc] at hbroken
        exact ⟨_, BlockStore.get?_cut_tail hget, hbroken⟩
      · rw [if_neg heq]
        exact ⟨c, BlockStore.get?_cut_other hget heq hc, hbroken⟩
    · rintro ⟨c, hc, hbroken⟩
      rcases BlockStore.get?_cut_cases hget hc with ⟨rfl, rfl⟩ | ⟨-, rfl⟩ | ⟨-, hne, hold⟩
      · exact ⟨id, (h.mem_iff id).mpr ⟨whole, hget, hbroken⟩, if_pos rfl⟩
      · cases hbroken
      · exact ⟨k, (h.mem_iff k).mpr ⟨c, hold, hbroken⟩, if_neg hne⟩
  · refine List.forall₂_map_left_iff.mpr (h.told.imp fun j d htells => ?_)
    by_cases heq : j = id
    · rw [if_pos heq]
      rw [heq] at htells
      exact htells.cut hget hin
    · rw [if_neg heq]
      exact htells.mono (fun c _ hc => BlockStore.get?_cut_other hget heq hc) fun a ha => ha
  · rcases BlockStore.get?_cut_cases hget hc with ⟨-, rfl⟩ | ⟨-, rfl⟩ | ⟨-, -, hold⟩
    · rw [Block.stop_tailFrom hin]
      exact h.ended id whole hget hbroken
    · cases hbroken
    · exact h.ended k c hold hbroken

end Session.Broken

end Updates

section Steps

variable {e : Explorer} {s s' : Session} {r : Reference} {ids : List Nat} {start : Address}
  {is : List Instruction} {i : Instruction} {kind : BlockKind}

/-- All bytes of a block are code, so a finding at its start tells of it. -/
theorem LaidOut.tells_of_start {image : Image} {context : DecodeContext} {id : Nat} {b : Block}
    {d : Diagnostic} (h : LaidOut image context s) (hget : s.blocks.get? id = some b)
    (hbroken : b.kind = .broken) (hd : d.location = b.start) : s.Tells id d := by
  have hstop := Block.toInt_stop (h.wellFormed.positive hget) (h.wellFormed.bounded hget)
  refine ⟨b, hget, hbroken, by rw [hd], by rw [hd], fun a ha hlo hhi => ?_⟩
  rw [hd] at hlo
  rw [hstop] at hhi
  exact h.kind_eq_code_iff.mpr ⟨id, b, hget, Block.contains_iff.mpr ⟨ha, hlo, hhi⟩⟩

/-- A block that is about to be closed as broken has had its reason reported. -/
theorem Ending.exists_reason (h : Ending s start is i kind s') (hkind : kind = .broken) :
    ∃ d ∈ s'.diagnostics.toList, d.location = Run.stop start (is ++ [i]) ∧ d.code ∈
      [DiagnosticCode.outOfImage, .invalidInstruction, .overlappingInstruction, .ranIntoData] := by
  cases h with
  | ranOn ht => cases hkind
  | brokeOff ht code message hreport =>
      exact ⟨_, (Session.mem_report_diagnostics _).mpr (Or.inr rfl), rfl, hreport.code_mem⟩
  | transferred t ht => exact absurd hkind (BlockKind.ofTransfer_ne t).2

/-- Closing a block adds a finding exactly if the block is broken. -/
theorem Session.breakages_close (s : Session) (start : Address) (is : List Instruction)
    (kind : BlockKind) : (s.close start is kind).breakages = s.breakages
      ++ if kind = .broken then [⟨start, .brokenBasicBlock,
        "Block ends abnormally at " ++ (Run.stop start is).text⟩] else [] := by
  unfold breakages close
  by_cases hk : kind = .broken
  · simp [hk, report, Diagnostics.toList_report]
  · simp [hk]

theorem Kept.kind_eq_code (h : Kept s s') (a : Address) (ha : (s.bytes.get a).kind = .code) :
    (s'.bytes.get a).kind = .code := by
  rw [h.bytes (by rw [ha]; decide)]
  exact ha

/-- A visit keeps the correspondence between broken blocks and findings. -/
theorem Visited.broken (hlaid : LaidOut e.image e.context s) (h : s.Broken ids)
    (hv : Visited e s r s') : ∃ ids', s'.Broken ids' := by
  have hlaid' := hv.laidOut hlaid
  have hgrown := hv.grown
  have hbytes := (hv.kept hlaid).kind_eq_code
  cases hv with
  | misdirected code what hwhy =>
      refine ⟨ids, h.report _ _ ?_⟩
      cases hwhy <;> decide
  | known id hstart => exact ⟨ids, h⟩
  | stuck code message hwhy hunknown =>
      refine ⟨ids, h.report _ _ ?_⟩
      cases hwhy <;> decide
  | cut id whole j last i hget hin hj hne hi hnext hlast straight =>
      exact ⟨_, (h.cut hget hin).record _⟩
  | decoded is i kind s1 fresh straight hlen hending =>
      have hblocks : (s1.close r.target (is ++ [i]) kind).blocks
          = s.blocks.push (Run.block r.target (is ++ [i]) kind) := by
        simp only [Session.close_stores, hending.stores]
      have hbreakages := s1.breakages_close r.target (is ++ [i]) kind
      have hdecoding : s1.breakages = s.breakages := hending.finds.adds.filter_code (by decide)
      rw [hdecoding] at hbreakages
      -- A block that is broken brings its finding, and any other block brings none.
      by_cases hk : kind = .broken
      · rw [if_pos hk] at hbreakages
        have hget : (s1.close r.target (is ++ [i]) kind).blocks.get? s.blocks.size
            = some (Run.block r.target (is ++ [i]) kind) := by
          rw [hblocks]
          exact BlockStore.get?_push_self
        refine ⟨_, h.push hblocks hbytes hbreakages (hlaid'.tells_of_start hget hk rfl)
          (fun d hd => hgrown.diagnostics hd) ?_⟩
        -- The block ends where decoding stopped, and the reason has been reported there.
        rcases hending.exists_reason hk with ⟨d, hd, hlocation, hcode⟩
        rw [Run.stop_block fresh.run (by simp)]
        exact ⟨d, (s1.close_grown _ _ _).diagnostics hd, hlocation, hcode⟩
      · have hsame : (s1.close r.target (is ++ [i]) kind).diagnostics = s1.diagnostics := by
          unfold Session.close
          rw [if_neg hk]
        refine ⟨ids, h.congr (fun {k c} hc => ?_) hbytes (by rw [hsame]; exact hending.finds.adds)
          (by decide)⟩
        rw [hblocks]
        refine ⟨fun hget => ?_, BlockStore.get?_push_of_get?⟩
        rcases BlockStore.get?_push_cases hget with ⟨-, rfl⟩ | hold
        · exact absurd hc hk
        · exact hold

/-- The step lemma. Only a visit can add a broken block, and it adds the finding with it. -/
theorem Followed.broken (hlaid : LaidOut e.image e.context s) (h : s.Broken ids)
    (hf : Followed e s r s') : ∃ ids', s'.Broken ids' := by
  have hkept := hf.kept hlaid
  cases hf with
  | slot hprobe s' hslot =>
      cases hslot with
      | refused => exact ⟨ids, h⟩
      | accepted word hword hlimit hfree hin hlanding hself =>
          exact ⟨ids, h.congr (fun _ => Iff.rfl) hkept.kind_eq_code
            (Diagnostics.Adds.refl [] _) List.not_mem_nil⟩
  | dynamic hprobe htarget => exact ⟨ids, (h.report _ _ (by decide)).record r⟩
  | visited htarget s' hv =>
      rcases hv.broken hlaid h with ⟨ids', h'⟩
      exact ⟨ids', h'.record r⟩

end Steps

/-- The broken blocks of an explored session and the findings about broken blocks correspond one
    to one. A finding stands in front of its block, with nothing but code in between, and the
    reason for which the block broke off has been reported at its end. -/
theorem Explored.broken_matched {image : Image} {context : DecodeContext} {s : Session}
    (h : Explored image context (fun limits => 1 ≤ limits.blockInstructions) s) :
    ∃ ids, s.Broken ids := by
  refine (h.keeps_laidOut (P := fun s => ∃ ids, s.Broken ids) (fun _ hl => hl) ?_ ?_ ?_).2
  · refine ⟨[], List.nodup_nil, fun id => ?_, List.Forall₂.nil, fun id b hget => ?_⟩
    · simp [Session.fresh, BlockStore.get?]
    · simp [Session.fresh, BlockStore.get?] at hget
  · rintro s entry kind ⟨ids, hs⟩ _
    exact ⟨ids, hs.congr (fun _ => Iff.rfl) (fun _ ha => ha) (Diagnostics.Adds.refl [] _)
      List.not_mem_nil⟩
  · rintro s limits r queue s' ⟨ids, hs⟩ _ _ hlaid hf
    have hpopped : ({ s with queue := queue } : Session).Broken ids :=
      hs.congr (fun _ => Iff.rfl) (fun _ ha => ha) (Diagnostics.Adds.refl [] _) List.not_mem_nil
    exact hf.broken hlaid hpopped

/-- Two instructions at the end of an image, of which the second is entered later on. -/
def runOut : Image := Image.ofBytes #[0x90, 0x90] 0

/-- The second call cuts the broken block, whose finding stays at the start of the first part. -/
theorem broken_matched_runOut :
    let e : Explorer := ⟨runOut, {}, {}⟩
    ∃ s s', e.analyze (fun _ => false) ⟨0, 0⟩ .entry .fresh = .ok (s, .ok ())
      ∧ e.analyze (fun _ => false) ⟨0, 1⟩ .entry s = .ok (s', .ok ())
      ∧ s'.blocks.get? 0 = some ⟨⟨0, 0⟩, 1, .fallThrough⟩
      ∧ s'.blocks.get? 1 = some ⟨⟨0, 1⟩, 1, .broken⟩
      ∧ s'.breakages.map (·.location) = [⟨0, 0⟩] ∧ ∃ ids, s'.Broken ids := by
  intro e
  -- What is to be seen is seen after the second call, so the first is evaluated with it.
  let p : Session → Bool := fun s => decide (s.blocks.get? 0 = some ⟨⟨0, 0⟩, 1, .fallThrough⟩
    ∧ s.blocks.get? 1 = some ⟨⟨0, 1⟩, 1, .broken⟩ ∧ s.breakages.map (·.location) = [⟨0, 0⟩])
  let again : Session → Bool := fun s =>
    (e.analyze (fun _ => false) ⟨0, 1⟩ .entry s).toOption.any (fun x => x.2.isOk && p x.1)
  have hfound : (e.analyze (fun _ => false) ⟨0, 0⟩ .entry .fresh).toOption.any
      (fun x => x.2.isOk && again x.1) = true := by
    decide +kernel
  rcases exists_session_of_any again hfound with ⟨s, hfirst, hfound'⟩
  rcases exists_session_of_any p hfound' with ⟨s', hsecond, hp⟩
  rcases of_decide_eq_true hp with ⟨hhead, htail, hfindings⟩
  have hfresh : Explored runOut {} (fun limits => 1 ≤ limits.blockInstructions) .fresh := .fresh
  have hbetween := hfresh.analyze {} (by decide) _ _ _ hfirst
  have hexplored := hbetween.analyze {} (by decide) _ _ _ hsecond
  exact ⟨s, s', hfirst, hsecond, hhead, htail, hfindings, hexplored.broken_matched⟩

end Disasm86
