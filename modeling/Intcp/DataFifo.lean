import Intcp.InputLoop
import Mathlib.Data.List.TakeWhile

/-!
# The data plane is a queue

What is put into `sndQueue` leaves it in order: the datagrams that a node sends
toward the requester, decoded one after the other, are the segments ever queued
without those still waiting. Only `sn`, `ts` and, at the responder, `wnd` are
rewritten, `sn` counts up from 0, and every datagram fits the MTU.
-/

namespace DataFifo

open FuelledLoop StepRuns Words BlockCache TransControl SegmentCodec DataPlane HoleTracking
  InterestPlane NodeCore CallRules InputLoop

universe u
variable {F : Type u} {nameLen : Nat} {P : Platform F}

/-- What a segment keeps on its way through the queue and over the wire. -/
structure Forwarded (role : Role) (got seg : IntcpSeg) : Prop where
  cmd : got.cmd = seg.cmd
  len : got.len = seg.len
  rangeStart : got.rangeStart = seg.rangeStart
  rangeEnd : got.rangeEnd = seg.rangeEnd
  data : got.data = seg.data
  wnd : role ≠ .responder → got.wnd = seg.wnd

instance (role : Role) (got seg : IntcpSeg) : Decidable (Forwarded role got seg) :=
  decidable_of_iff (got.cmd = seg.cmd ∧ got.len = seg.len ∧ got.rangeStart = seg.rangeStart ∧
      got.rangeEnd = seg.rangeEnd ∧ got.data = seg.data ∧ (role ≠ .responder → got.wnd = seg.wnd))
    ⟨fun ⟨hcmd, hlen, hstart, hend, hdata, hwnd⟩ => ⟨hcmd, hlen, hstart, hend, hdata, hwnd⟩,
      fun ⟨hcmd, hlen, hstart, hend, hdata, hwnd⟩ => ⟨hcmd, hlen, hstart, hend, hdata, hwnd⟩⟩

/-- A data segment whose payload fills its range, or a header. -/
def Whole (seg : IntcpSeg) : Prop :=
  seg.cmd = intcpCmdPush ∧ (seg.len = 0 ∨ seg.rangeEnd - seg.rangeStart = seg.len)

instance (seg : IntcpSeg) : Decidable (Whole seg) := inferInstanceAs (Decidable (_ ∧ _))

lemma Forwarded.whole {role : Role} {got seg : IntcpSeg} (forwarded : Forwarded role got seg)
    (whole : Whole seg) : Whole got := by
  rw [Whole, forwarded.cmd, forwarded.len, forwarded.rangeStart, forwarded.rangeEnd]
  exact whole

/-- The segments that the receiver of a series of datagrams passes on. -/
def decodeAll (P : Platform F) (sent : List (List UInt8)) : List IntcpSeg :=
  sent.flatMap (accepted P)

def Consecutive (segs : List IntcpSeg) : Prop :=
  segs.map (·.sn) = (List.range segs.length).map UInt32.ofNat

lemma Consecutive.snoc {segs : List IntcpSeg} {seg : IntcpSeg} (numbered : Consecutive segs)
    (sn : seg.sn = UInt32.ofNat segs.length) : Consecutive (segs ++ [seg]) := by
  have hlength : (segs ++ [seg]).length = segs.length + 1 := by simp
  rw [Consecutive] at numbered ⊢
  rw [hlength, List.range_succ, List.map_append, List.map_append, numbered, List.map_singleton,
    List.map_singleton, sn]

/-- The datagrams sent are `groups` of framed segments, and `pending` is framed but not
sent; together they are what was queued and no longer waits. -/
structure Packed (role : Role) (sent : List (List UInt8)) (queued waiting : List IntcpSeg)
    (next : UInt32) (groups : List (List IntcpSeg)) (pending : List IntcpSeg) : Prop where
  datagrams : sent = groups.map fun group => group.flatMap frame
  sized : ∀ group ∈ groups, group ≠ [] ∧ (group.flatMap frame).length ≤ 1472
  room : (pending.flatMap frame).length ≤ 1472
  sendable : ∀ seg ∈ groups.flatten ++ pending, Sendable seg ∧ Whole seg
  numbered : Consecutive (groups.flatten ++ pending)
  next : next = UInt32.ofNat (groups.flatten ++ pending).length
  order : ∃ departed, queued = departed ++ waiting ∧
    List.Forall₂ (Forwarded role) (groups.flatten ++ pending) departed

variable {role : Role} {sent : List (List UInt8)} {queued waiting rest : List IntcpSeg}
  {next : UInt32} {groups : List (List IntcpSeg)} {pending : List IntcpSeg}

lemma Packed.enqueue (packed : Packed role sent queued waiting next groups pending)
    (segs : List IntcpSeg) :
    Packed role sent (queued ++ segs) (waiting ++ segs) next groups pending := by
  obtain ⟨departed, hqueued, horder⟩ := packed.order
  refine ⟨packed.datagrams, packed.sized, packed.room, packed.sendable, packed.numbered,
    packed.next, departed, ?_, horder⟩
  rw [hqueued, List.append_assoc]

/-- The buffer goes out as one more datagram. -/
lemma Packed.close (packed : Packed role sent queued waiting next groups pending)
    (nonempty : pending ≠ []) :
    Packed role (sent ++ [pending.flatMap frame]) queued waiting next (groups ++ [pending]) [] := by
  have hflat : (groups ++ [pending]).flatten ++ [] = groups.flatten ++ pending := by simp
  refine ⟨?_, ?_, by simp, ?_, ?_, ?_, ?_⟩
  · rw [packed.datagrams, List.map_append, List.map_singleton]
  · intro group hg
    rcases List.mem_append.mp hg with hg | hg
    · exact packed.sized group hg
    · obtain rfl := List.mem_singleton.mp hg
      exact ⟨nonempty, packed.room⟩
  · rw [hflat]
    exact packed.sendable
  · rw [hflat]
    exact packed.numbered
  · rw [hflat]
    exact packed.next
  · rw [hflat]
    exact packed.order

lemma frames_eq_nil (segs : List IntcpSeg) : (segs.flatMap frame).length = 0 ↔ segs = [] := by
  have hle := length_le_frames segs
  constructor
  · intro h
    exact List.eq_nil_of_length_eq_zero (by omega)
  · rintro rfl
    rfl

/-- Sending what the buffer holds, which may be nothing. -/
lemma Packed.settle (packed : Packed role sent queued waiting next groups pending) :
    ∃ groups, Packed role (sent ++ CallRules.datagrams (pending.flatMap frame)) queued waiting
      next groups [] := by
  by_cases hnil : pending = []
  · subst hnil
    refine ⟨groups, ?_⟩
    have hnone : CallRules.datagrams (([] : List IntcpSeg).flatMap frame) = [] := rfl
    rw [hnone, List.append_nil]
    exact packed
  · refine ⟨groups ++ [pending], ?_⟩
    rw [CallRules.datagrams, if_neg fun h => hnil ((frames_eq_nil pending).mp h)]
    exact packed.close hnil

/-- The head of the queue is framed behind the buffer. -/
lemma Packed.take {seg got : IntcpSeg}
    (packed : Packed role sent queued (seg :: rest) next groups pending)
    (forwarded : Forwarded role got seg) (sn : got.sn = next) (sendable : Sendable got ∧ Whole got)
    (room : (pending.flatMap frame).length + (frame got).length ≤ 1472) :
    Packed role sent queued rest (next + 1) groups (pending ++ [got]) := by
  obtain ⟨departed, hqueued, horder⟩ := packed.order
  have hassoc : groups.flatten ++ (pending ++ [got]) = (groups.flatten ++ pending) ++ [got] := by
    rw [List.append_assoc]
  refine ⟨packed.datagrams, packed.sized, ?_, ?_, ?_, ?_, departed ++ [seg], ?_, ?_⟩
  · rw [List.flatMap_append, List.length_append, List.flatMap_singleton]
    exact room
  · rw [hassoc]
    intro s hs
    rcases List.mem_append.mp hs with hs | hs
    · exact packed.sendable s hs
    · obtain rfl := List.mem_singleton.mp hs
      exact sendable
  · rw [hassoc]
    exact packed.numbered.snoc (sn.trans packed.next)
  · rw [hassoc, List.length_append, List.length_singleton, packed.next, UInt32.ofNat_add]
    rfl
  · rw [hqueued, List.append_assoc, List.singleton_append]
  · rw [hassoc]
    exact List.rel_append horder (List.Forall₂.cons forwarded List.Forall₂.nil)

/-- Every queued segment is whole, and where none is longer than the MSS, what was
sent is what was queued and does not wait. -/
structure Fifo (role : Role) (nodeRole : Role) (history : History) (sndQueue : List IntcpSeg)
    (dataNextSn : UInt32) : Prop where
  sameRole : nodeRole = role
  whole : ∀ seg ∈ history.queued, Whole seg
  packed : (∀ seg ∈ history.queued, seg.len ≤ intcpMss) →
    ∃ groups, Packed role history.toRequester history.queued sndQueue dataNextSn groups []

abbrev InOrder (role : Role) (cb : IntcpTransCB F nameLen) : Prop :=
  Fifo role cb.nodeRole cb.history cb.sndQueue cb.dataNextSn

lemma inOrder_enqueueAll {cb : IntcpTransCB F nameLen} (h : InOrder role cb)
    {segs : List IntcpSeg} (whole : ∀ seg ∈ segs, Whole seg) :
    InOrder role (enqueueAll cb segs) := by
  refine ⟨h.sameRole, ?_, ?_⟩
  · intro seg hseg
    rcases List.mem_append.mp hseg with hseg | hseg
    · exact h.whole seg hseg
    · exact whole seg hseg
  · intro short
    obtain ⟨groups, packed⟩ := h.packed fun seg hseg => short seg (List.mem_append_left _ hseg)
    exact ⟨groups, packed.enqueue segs⟩

lemma sendable_whole {seg : IntcpSeg} (whole : Whole seg) (short : seg.len ≤ intcpMss) :
    Sendable seg := by
  refine ⟨Or.inl whole.1, ?_⟩
  have hlen : seg.len.toNat ≤ 1449 := UInt32.le_iff_toNat_le.mp short
  rw [Int32.lt_iff_toInt_lt, toInt_toInt32 (by omega)]
  have hzero : (0 : Int32).toInt = 0 := rfl
  omega

lemma forwarded_stamp {cb : IntcpTransCB F nameLen} (hrole : cb.nodeRole = role) (seg : IntcpSeg) :
    Forwarded role (stamp P cb seg) seg := by
  refine ⟨rfl, rfl, rfl, rfl, rfl, ?_⟩
  intro hne
  rw [← hrole] at hne
  simp only [stamp, if_neg hne]

/-- The state of `flushData` with `rest` ahead of it. -/
structure Filling (role : Role) (fl : Flushing F nameLen) (rest : List IntcpSeg) : Prop where
  sameRole : fl.cb.nodeRole = role
  waiting : fl.cb.sndQueue = rest
  whole : ∀ seg ∈ fl.cb.history.queued, Whole seg
  short : ∀ seg ∈ fl.cb.history.queued, seg.len ≤ intcpMss
  packed : ∃ groups pending, fl.buf = pending.flatMap frame ∧
    Packed role fl.cb.history.toRequester fl.cb.history.queued rest fl.cb.dataNextSn groups pending

lemma filling_makeRoom {fl : Flushing F nameLen} {seg : IntcpSeg}
    (filling : Filling role fl (seg :: rest)) (small : seg.len ≤ intcpMss) :
    Filling role (makeRoom fl seg) (seg :: rest) ∧
      (makeRoom fl seg).buf.length + (23 + seg.len.toNat) ≤ 1472 := by
  obtain ⟨groups, pending, hbuf, packed⟩ := filling.packed
  have hlen : seg.len.toNat ≤ 1449 := UInt32.le_iff_toNat_le.mp small
  have hroom : fl.buf.length ≤ 1472 := hbuf ▸ packed.room
  have hwire : (intcpOverhead + seg.len).toNat = 23 + seg.len.toNat :=
    toNat_add_small (by simp only [intcpOverhead, UInt32.reduceToNat]; omega)
  have hbuflen : (UInt32.ofNat fl.buf.length).toNat = fl.buf.length :=
    UInt32.toNat_ofNat_of_lt' (by simp only [UInt32.size]; omega)
  have htotal : (UInt32.ofNat fl.buf.length + (intcpOverhead + seg.len)).toNat =
      fl.buf.length + (23 + seg.len.toNat) := by
    rw [toNat_add_small (by omega), hbuflen, hwire]
  have hmtu : intcpMtu.toNat = 1472 := rfl
  rw [makeRoom]
  split
  · rename_i hfull
    rw [gt_iff_lt, UInt32.lt_iff_toNat_lt, htotal, hmtu] at hfull
    obtain ⟨groups', packed'⟩ := packed.settle
    simp only [output_requester]
    refine ⟨⟨filling.sameRole, filling.waiting, filling.whole, filling.short, groups', [], rfl, ?_⟩, ?_⟩
    · rw [hbuf]
      exact packed'
    · simp only [List.length_nil]
      omega
  · rename_i hfits
    rw [gt_iff_lt, UInt32.lt_iff_toNat_lt, htotal, hmtu] at hfits
    exact ⟨filling, by omega⟩

lemma filling_flushSeg {fl : Flushing F nameLen} {seg : IntcpSeg}
    (filling : Filling role fl (seg :: rest)) : Filling role (flushSeg P fl seg) rest := by
  obtain ⟨_, _, _, packed⟩ := filling.packed
  obtain ⟨departed, hqueued, _⟩ := packed.order
  have hmem : seg ∈ fl.cb.history.queued := by
    rw [hqueued]
    simp
  have hshort := filling.short seg hmem
  have hwhole := filling.whole seg hmem
  simp only [flushSeg]
  generalize hcharged : Flushing.mk _ fl.buf = charged
  have hfilling : Filling role charged (seg :: rest) := by
    rw [← hcharged]
    exact ⟨filling.sameRole, filling.waiting, filling.whole, filling.short, filling.packed⟩
  obtain ⟨made, hroom⟩ := filling_makeRoom hfilling hshort
  obtain ⟨groups, pending, hbuf, hpacked⟩ := made.packed
  have hstamp := forwarded_stamp (P := P) made.sameRole seg
  have hsend : Sendable (stamp P (makeRoom charged seg).cb seg) :=
    sendable_whole (hstamp.whole hwhole) (hstamp.len ▸ hshort)
  refine ⟨made.sameRole, ?_, made.whole, made.short, groups,
    pending ++ [stamp P (makeRoom charged seg).cb seg], ?_, ?_⟩
  · simp only [made.waiting, List.tail_cons]
  · rw [List.flatMap_append, List.flatMap_singleton, hbuf]
  · refine hpacked.take hstamp rfl ⟨hsend, hstamp.whole hwhole⟩ ?_
    rw [length_frame, hstamp.len, ← hbuf]
    exact hroom

lemma inOrder_flushData {cb : IntcpTransCB F nameLen} (h : InOrder role cb) :
    InOrder role (flushData P cb) := by
  obtain ⟨limit, n, sn, bytes, queue, out, hframe⟩ := flushData_frame (P := P) cb
  have hrole : (flushData P cb).nodeRole = cb.nodeRole := by rw [hframe]
  have hqueued : (flushData P cb).history.queued = cb.history.queued := by rw [hframe]
  refine ⟨hrole.trans h.sameRole, hqueued ▸ h.whole, ?_⟩
  intro short
  rw [hqueued] at short
  obtain ⟨groups, packed⟩ := h.packed short
  simp only [flushData, output_requester]
  generalize hstart : Flushing.mk _ [] = fl
  have hfilling : Filling role fl (tick cb).sndQueue := by
    rw [← hstart]
    exact ⟨h.sameRole, rfl, h.whole, short, groups, [], rfl, packed⟩
  obtain ⟨rest, hflushed⟩ := flushSegs_rule (P := P) (Filling role)
    (fun _ _ _ => filling_flushSeg) hfilling
  obtain ⟨groups', pending, hbuf, hpacked⟩ := hflushed.packed
  rw [hbuf]
  simp only [settleLimit, hflushed.waiting]
  exact hpacked.settle

lemma inOrder_outputInt {cb : IntcpTransCB F nameLen} (h : InOrder role cb) (s e : UInt32) :
    InOrder role (outputInt P cb s e) := by
  rw [outputInt_eq]
  exact ⟨h.sameRole, h.whole, h.packed⟩

lemma inOrder_request {cb : IntcpTransCB F nameLen} (h : InOrder role cb) (s e : UInt32) :
    InOrder role (request P cb s e).2 := by
  simp only [request]
  split
  · exact h
  · split
    · exact ⟨h.sameRole, h.whole, h.packed⟩
    · exact ⟨h.sameRole, h.whole, h.packed⟩

lemma chunks_whole (fuel : Nat) (buffer : Buffer) (start len : UInt32) :
    ∀ seg ∈ chunks P fuel buffer start len, Whole seg := by
  induction fuel generalizing buffer start len with
  | zero => simp [chunks]
  | succ fuel ih =>
    rw [chunks]
    split
    · simp
    · intro seg hseg
      rcases List.mem_cons.mp hseg with rfl | hseg
      · exact ⟨rfl, Or.inr (add_sub_cancel_left start _)⟩
      · exact ih _ _ _ seg hseg

lemma inOrder_sendData {cb : IntcpTransCB F nameLen} (h : InOrder role cb) (buffer : Buffer)
    (start stop : UInt32) : InOrder role (enqueueAll cb (sentSegs P buffer start stop)) := by
  apply inOrder_enqueueAll h
  rw [sentSegs]
  split
  · simp
  · exact chunks_whole _ _ _ _

lemma inOrder_parseInt {cb : IntcpTransCB F nameLen} (h : InOrder role cb) (s e : UInt32) :
    InOrder role (parseInt P cb s e) := by
  apply parseInt_rule (InOrder role) _ _ s e _ _ _ _ h
  · intro cb s e h
    exact h
  · intro cb buffer start stop h
    exact inOrder_sendData h buffer start stop
  · intro cb ir h _
    exact h
  · intro cb h
    exact h
  · intro cb s h _
    exact inOrder_outputInt h s e
  · intro cb s h _ _
    exact inOrder_request h s e

lemma inOrder_enqueue {cb : IntcpTransCB F nameLen} (h : InOrder role cb) {seg : IntcpSeg}
    (whole : Whole seg) : InOrder role (enqueue cb seg) := by
  rw [enqueue_eq]
  exact inOrder_enqueueAll h (by simpa using whole)

lemma inOrder_detectDataHole {cb : IntcpTransCB F nameLen} (h : InOrder role cb) (s e : UInt32) :
    InOrder role (detectDataHole P cb s e).2 := by
  simp only [detectDataHole]
  split
  · exact h
  · split
    · exact h
    · split
      · exact h
      · split
        · have hhole : InOrder role (insertDataHole P cb cb.dataNextRangeStart s) := h
          exact inOrder_enqueue hhole ⟨rfl, Or.inl rfl⟩
        · exact h

lemma inOrder_updateIntBuf {cb : IntcpTransCB F nameLen} (h : InOrder role cb) (s e : UInt32) :
    InOrder role (updateIntBuf P cb s e) := by
  obtain ⟨n, hn⟩ := splitInts_reads (P := P) s e cb cb.intBuf
  rw [updateIntBuf, hn]
  exact h

lemma inOrder_flushIntQueue {cb cb' : IntcpTransCB F nameLen} (h : InOrder role cb)
    (hqueue : flushIntQueue P cb = some cb') : InOrder role cb' := by
  refine loop_invariant (InOrder role) (InOrder role) ?_ ?_ h hqueue
  · intro s t hs hpass
    rw [queuePass] at hpass
    split at hpass <;> cases hpass
    exact hs
  · intro s t hs hpass
    rw [queuePass] at hpass
    split at hpass <;> cases hpass
    exact hs

lemma inOrder_sendInt {cb : IntcpTransCB F nameLen} (h : InOrder role cb) (seg : IntcpSeg) :
    InOrder role (sendInt P cb seg) := by
  apply inOrder_outputInt
  exact h

lemma inOrder_chargeLimit {cb : IntcpTransCB F nameLen} (h : InOrder role cb) (size : UInt32) :
    InOrder role (chargeLimit cb size) := by
  rw [chargeLimit]
  split
  · exact h
  · exact h

lemma inOrder_sendInts {cb : IntcpTransCB F nameLen} (h : InOrder role cb) (newOutput : Int32) :
    InOrder role (sendInts P cb newOutput) := by
  have hticked : ∀ cb : IntcpTransCB F nameLen, InOrder role cb → InOrder role (tick cb) :=
    fun _ h => h
  have hsent : InOrder role (flushInts P ⟨cb, [], 0, false⟩ cb.intBuf).cb := by
    apply flushInts_rule (fun fl _ => InOrder role fl.cb) _ _ _ _ _ h
    · intro fl seg rest h
      exact h
    · intro fl seg rest h _
      exact h
    · intro fl seg rest size h _
      exact inOrder_chargeLimit (hticked _ h) size
    · intro fl seg rest n h _
      have hgone : InOrder role (sendInt P (tick fl.cb) seg) := inOrder_sendInt (hticked _ h) seg
      exact ⟨hgone.sameRole, hgone.whole, hgone.packed⟩
    · intro fl seg rest n size ts h _
      exact inOrder_sendInt (inOrder_chargeLimit (hticked _ h) size) seg
  simp only [sendInts]
  by_cases hdead : (flushInts P ⟨cb, [], 0, false⟩ cb.intBuf).cb.state = -1
  · rw [if_pos hdead]
    exact hsent
  · rw [if_neg hdead]
    exact hsent

lemma inOrder_flushIntBuf {cb : IntcpTransCB F nameLen} (h : InOrder role cb) :
    InOrder role (flushIntBuf P cb) := by
  rw [flushIntBuf]
  split
  · exact h
  · apply inOrder_sendInts
    exact h

lemma inOrder_flushDataHoles {cb : IntcpTransCB F nameLen} (h : InOrder role cb) :
    InOrder role (flushDataHoles P cb) := by
  have hticked : InOrder role (tick cb) := h
  have hflushed : InOrder role (flushHoles P (getMillisec P cb) (tick cb) cb.dataHoles).1 := by
    apply flushHoles_rule (InOrder role) _ _ _ _ _ hticked
    · intro cb b h
      exact ⟨h.sameRole, h.whole, h.packed⟩
    · intro cb hole _ h
      exact inOrder_parseInt h _ _
    · intro cb hole _ h _
      exact inOrder_updateIntBuf h _ _
  exact hflushed

lemma inOrder_parseData {cb : IntcpTransCB F nameLen} (h : InOrder role cb) {seg : IntcpSeg}
    (whole : Whole seg) (header : Bool) : InOrder role (parseData cb seg header) := by
  have hsent : InOrder role (if cb.nodeRole ≠ .requester then enqueue cb seg else cb) := by
    split
    · exact inOrder_enqueue h whole
    · exact h
  simp only [parseData]
  cases header with
  | true => exact hsent
  | false => exact hsent

lemma inOrder_input {cb : IntcpTransCB F nameLen} (h : InOrder role cb) (data : List UInt8) :
    InOrder role (input P cb data).2 := by
  apply input_rule (InOrder role) (fun _ => True) _ _ _ data (fun _ _ => trivial) h
  · intro cb h
    exact h
  · intro cb s h _ _
    simp only [inputInt]
    split
    · exact h
    · apply inOrder_parseInt
      exact h
  · intro cb current s h _ push
    have hmeasured : InOrder role (measureHop P cb current s) := by
      apply measureHop_rule (InOrder role) _ _ _ h
      · intro cb h
        exact h
      · intro cb cc rest h
        exact h
      · intro cb h _
        exact inOrder_outputInt h 0 0
    have hdetected : InOrder role (detect P (measureHop P cb current s) s) :=
      inOrder_detectDataHole hmeasured s.rangeStart s.rangeEnd
    simp only [inputPush]
    split
    · rename_i hlen
      have hheader : Whole (rebuilt P s) := ⟨push, Or.inl hlen⟩
      exact inOrder_parseData hdetected hheader true
    · split
      · exact hdetected
      · rename_i hrange
        have hwhole : Whole (rebuilt P s) := ⟨push, Or.inr (not_not.mp hrange)⟩
        exact inOrder_parseData hdetected hwhole false

lemma inOrder_notifyNewData {cb : IntcpTransCB F nameLen} (h : InOrder role cb) (buffer : Buffer)
    (s e : UInt32) : InOrder role (notifyNewData P cb buffer s e) := by
  have hreleased : InOrder role (releaseInts P buffer s e cb cb.pendingInts).1 := by
    apply releaseInts_rule (InOrder role) _ _ _ _ h
    intro cb buffer start stop h
    exact inOrder_sendData h buffer start stop
  exact hreleased

lemma inOrder_recv {cb : IntcpTransCB F nameLen} (h : InOrder role cb) (maxBufSize : Int32) :
    InOrder role (recv cb maxBufSize).2 := by
  rw [recv]
  split
  · exact h
  · split
    · split
      · exact h
      · split
        · exact h
        · exact h
    · exact h

lemma inOrder_flush {cb cb' : IntcpTransCB F nameLen} (h : InOrder role cb)
    (hflush : flush P cb = some cb') : InOrder role cb' := by
  apply flush_rule (InOrder role) _ _ _ _ _ _ h hflush
  · intro cb h
    exact h
  · intro cb cb' h _ hqueue
    exact inOrder_flushIntQueue h hqueue
  · intro cb h
    exact inOrder_flushIntBuf h
  · intro cb h _
    exact inOrder_flushDataHoles h
  · intro cb h _
    exact inOrder_flushData h
  · intro cb ts h
    exact h

lemma inOrder_update {cb cb' : IntcpTransCB F nameLen} (h : InOrder role cb)
    (hupdate : update P cb = some cb') : InOrder role cb' := by
  apply update_rule (InOrder role) _ _ _ _ h hupdate
  · intro cb h
    exact h
  · intro cb now h
    exact h
  · intro cb updated next h
    exact h
  · intro cb cb' h hflush
    exact inOrder_flush h hflush

/-- `parseData` is given what `input` gives it, whole data segments. -/
def GivesWhole : Op nameLen → Prop
  | .parseData dataSeg _ => Whole dataSeg
  | _ => True

instance : ∀ op : Op nameLen, Decidable (GivesWhole op)
  | .parseData dataSeg _ => inferInstanceAs (Decidable (Whole dataSeg))
  | .input _ => inferInstanceAs (Decidable True)
  | .request _ _ => inferInstanceAs (Decidable True)
  | .parseInt _ _ => inferInstanceAs (Decidable True)
  | .notifyNewData _ _ _ => inferInstanceAs (Decidable True)
  | .insertData _ _ _ => inferInstanceAs (Decidable True)
  | .sendData _ _ _ => inferInstanceAs (Decidable True)
  | .sendDataHeader _ _ => inferInstanceAs (Decidable True)
  | .recv _ => inferInstanceAs (Decidable True)
  | .flush => inferInstanceAs (Decidable True)
  | .update => inferInstanceAs (Decidable True)
  | .cacheInsert _ _ _ _ => inferInstanceAs (Decidable True)
  | .cacheRead _ _ _ => inferInstanceAs (Decidable True)

theorem step_inOrder {op : Op nameLen} {cb cb' : IntcpTransCB F nameLen} (whole : GivesWhole op)
    (h : InOrder role cb) (hstep : op.step P cb = some cb') : InOrder role cb' := by
  rw [Op.step] at hstep
  split at hstep
  · cases hstep
    exact h
  · cases op with
    | input data =>
      cases hstep
      exact inOrder_input h data
    | request s e =>
      cases hstep
      exact inOrder_request h s e
    | parseInt s e =>
      cases hstep
      exact inOrder_parseInt h s e
    | notifyNewData buffer s e =>
      cases hstep
      exact inOrder_notifyNewData h buffer s e
    | insertData buffer s e =>
      obtain ⟨cache, _, rfl⟩ := Option.map_eq_some_iff.mp hstep
      apply inOrder_notifyNewData
      exact h
    | sendData buffer s e =>
      cases hstep
      rw [sendData_eq]
      exact inOrder_sendData h buffer s e
    | sendDataHeader s e =>
      cases hstep
      exact inOrder_enqueue h ⟨rfl, Or.inl rfl⟩
    | parseData seg header =>
      cases hstep
      exact inOrder_parseData h whole header
    | recv maxBufSize =>
      cases hstep
      exact inOrder_recv h maxBufSize
    | flush => exact inOrder_flush h hstep
    | update => exact inOrder_update h hstep
    | cacheInsert name s e dataBuf =>
      obtain ⟨cache, _, rfl⟩ := Option.map_eq_some_iff.mp hstep
      exact h
    | cacheRead name s e =>
      cases hstep
      exact h

/-- A receiver passes on every segment of a datagram of whole segments. -/
lemma accepted_frames (P : Platform F) {segs : List IntcpSeg}
    (sendable : ∀ seg ∈ segs, Sendable seg ∧ Whole seg) :
    accepted P (segs.flatMap frame) = segs.map (received P.raw) := by
  rw [accepted, decode_frames P.raw fun seg hseg => (sendable seg hseg).1]
  refine List.takeWhile_eq_self_iff.mpr ?_
  intro got hgot
  obtain ⟨seg, hseg, rfl⟩ := List.mem_map.mp hgot
  exact decide_eq_true (Or.inr (sendable seg hseg).2.2)

lemma Packed.decodeAll (P : Platform F) (packed : Packed role sent queued waiting next groups []) :
    decodeAll P sent = groups.flatten.map (received P.raw) := by
  have hgroup : ∀ group ∈ groups,
      accepted P (group.flatMap frame) = group.map (received P.raw) := by
    intro group hg
    apply accepted_frames
    intro seg hseg
    refine packed.sendable seg ?_
    rw [List.append_nil]
    exact List.mem_flatten.mpr ⟨group, hg, hseg⟩
  rw [DataFifo.decodeAll, packed.datagrams, List.flatMap_map, List.flatMap_def,
    List.map_congr_left hgroup, List.map_flatten]

lemma inOrder_create (role : Role) (nameChars : Vector UInt8 nameLen) (cache : Cache nameLen) :
    InOrder role (IntcpTransCB.create P role nameChars cache) := by
  refine ⟨rfl, by simp [IntcpTransCB.create], ?_⟩
  intro _
  exact ⟨[], rfl, by simp, by simp, by simp, rfl, rfl, [], rfl, List.Forall₂.nil⟩

/-- What a node sent toward the requester, as its receiver decodes it, is what was ever
queued without what still waits, numbered from 0, in datagrams that fit the MTU. -/
theorem run_dataFifo (P : Platform F) (role : Role) (nameChars : Vector UInt8 nameLen)
    (cache : Cache nameLen) (ops : List (Op nameLen)) {cb : IntcpTransCB F nameLen}
    (whole : ∀ op ∈ ops, GivesWhole op)
    (hrun : run (Op.step P) (IntcpTransCB.create P role nameChars cache) ops = some cb)
    (short : ∀ seg ∈ cb.history.queued, seg.len ≤ intcpMss) :
    (∃ departed, cb.history.queued = departed ++ cb.sndQueue ∧
      List.Forall₂ (Forwarded role) (decodeAll P cb.history.toRequester) departed) ∧
    Consecutive (decodeAll P cb.history.toRequester) ∧
    ∀ data ∈ cb.history.toRequester, 1 ≤ data.length ∧ data.length ≤ intcpMtu.toNat := by
  have h : InOrder role cb := run_invariant_all (InOrder role)
    (fun _ _ op h hwhole hstep => step_inOrder hwhole h hstep)
    (inOrder_create role nameChars cache) whole hrun
  obtain ⟨groups, packed⟩ := h.packed short
  obtain ⟨departed, hqueued, horder⟩ := packed.order
  have hnumbered := packed.numbered
  rw [List.append_nil] at horder hnumbered
  rw [packed.decodeAll P]
  refine ⟨⟨departed, hqueued, ?_⟩, ?_, ?_⟩
  · refine List.forall₂_map_left_iff.mpr (horder.imp ?_)
    intro got seg forwarded
    exact ⟨forwarded.cmd, forwarded.len, forwarded.rangeStart, forwarded.rangeEnd,
      forwarded.data, forwarded.wnd⟩
  · rw [Consecutive, List.map_map, List.length_map]
    exact hnumbered
  · intro data hdata
    rw [packed.datagrams] at hdata
    obtain ⟨group, hgroup, rfl⟩ := List.mem_map.mp hdata
    obtain ⟨hsome, hsize⟩ := packed.sized group hgroup
    have hpos : (group.flatMap frame).length ≠ 0 := fun h => hsome ((frames_eq_nil group).mp h)
    have hmtu : intcpMtu.toNat = 1472 := rfl
    omega

def twoSends : List (Op 1) :=
  [.sendData (fun i => UInt8.ofNat i) 100 400, .sendDataHeader 400 450, .update,
    .sendData (fun i => UInt8.ofNat i) 450 3000, .update]

/-- A responder that sends a datagram of two segments and keeps two more. -/
theorem run_dataFifo_sends :
    ∃ cb, run (Op.step freeClock) (IntcpTransCB.create freeClock .responder #v[110]
        (Cache.fresh fun _ _ => 0)) twoSends = some cb ∧
      (∃ departed, cb.history.queued = departed ++ cb.sndQueue ∧
        List.Forall₂ (Forwarded .responder) (decodeAll freeClock cb.history.toRequester) departed) ∧
      Consecutive (decodeAll freeClock cb.history.toRequester) ∧
      ∀ data ∈ cb.history.toRequester, 1 ≤ data.length ∧ data.length ≤ intcpMtu.toNat := by
  have hshort : ((run (Op.step freeClock) (IntcpTransCB.create freeClock .responder #v[110]
      (Cache.fresh fun _ _ => 0)) twoSends).map fun cb =>
        decide (∀ seg ∈ cb.history.queued, seg.len ≤ intcpMss)) = some true := by
    decide +kernel
  obtain ⟨cb, hrun, hdecide⟩ := Option.map_eq_some_iff.mp hshort
  exact ⟨cb, hrun, run_dataFifo _ _ _ _ _ (by decide) hrun (of_decide_eq_true hdecide)⟩

end DataFifo
