import Intcp.NodeCore

/-!
# What the calls of a node do to its state

For each function that other functions call, the state it leaves as one record,
or a rule: a property kept by the steps of a loop is kept by the loop. The
invariants of the later modules are proved from these.
-/

namespace CallRules

open FuelledLoop Words BlockCache TransControl SegmentCodec RateControl DataPlane HoleTracking
  InterestPlane NodeCore

universe u
variable {F : Type u} {nameLen : Nat} {P : Platform F}

def wireLen (seg : IntcpSeg) : UInt32 := intcpOverhead + seg.len

/-- The bytes that a queue accounts for, as the 32-bit counter computes them. -/
def queueBytes (segs : List IntcpSeg) : Int32 := (segs.map fun seg => (wireLen seg).toInt32).sum

def enqueueAll (cb : IntcpTransCB F nameLen) (segs : List IntcpSeg) : IntcpTransCB F nameLen :=
  { cb with
    sndQueue := cb.sndQueue ++ segs
    sndQueueBytes := cb.sndQueueBytes + queueBytes segs
    history := { cb.history with queued := cb.history.queued ++ segs } }

lemma queueBytes_cons (seg : IntcpSeg) (segs : List IntcpSeg) :
    queueBytes (seg :: segs) = (wireLen seg).toInt32 + queueBytes segs := by
  rw [queueBytes, List.map_cons, List.sum_cons]
  rfl

lemma queueBytes_append (a b : List IntcpSeg) :
    queueBytes (a ++ b) = queueBytes a + queueBytes b := by
  induction a with
  | nil => simp [queueBytes]
  | cons seg a ih =>
    rw [List.cons_append, queueBytes_cons, queueBytes_cons, ih]
    grind

lemma enqueueAll_nil (cb : IntcpTransCB F nameLen) : enqueueAll cb [] = cb := by
  simp [enqueueAll, queueBytes]

lemma enqueueAll_enqueue (cb : IntcpTransCB F nameLen) (seg : IntcpSeg) (segs : List IntcpSeg) :
    enqueueAll (enqueue cb seg) segs = enqueueAll cb (seg :: segs) := by
  have hbytes : cb.sndQueueBytes + (intcpOverhead + seg.len).toInt32 + queueBytes segs =
      cb.sndQueueBytes + queueBytes (seg :: segs) := by
    rw [queueBytes_cons, wireLen]
    grind
  simp only [enqueueAll, enqueue, List.append_assoc, List.singleton_append, hbytes]

/-- The segments that `sendData` cuts a buffer into. -/
def chunks (P : Platform F) : Nat → Buffer → UInt32 → UInt32 → List IntcpSeg
  | 0, _, _, _ => []
  | fuel + 1, buffer, start, len =>
    if len = 0 then []
    else
      let size := if len > intcpMss then intcpMss else len
      pushSeg P start (start + size) size (buffer.bytes size.toNat)
          (length_chunk buffer size) ::
        chunks P fuel (buffer.advance size.toNat) (start + size) (len - size)

def sentSegs (P : Platform F) (buffer : Buffer) (start stop : UInt32) : List IntcpSeg :=
  if (stop - start).toInt32 ≤ 0 then []
  else chunks P (stop - start).toNat buffer start (stop - start)

lemma sendSegs_eq (fuel : Nat) (cb : IntcpTransCB F nameLen) (buffer : Buffer)
    (start len : UInt32) :
    sendSegs P fuel cb buffer start len = enqueueAll cb (chunks P fuel buffer start len) := by
  induction fuel generalizing cb buffer start len with
  | zero => exact (enqueueAll_nil cb).symm
  | succ fuel ih =>
    rw [sendSegs, chunks]
    split
    · exact (enqueueAll_nil cb).symm
    · simp only [ih, enqueueAll_enqueue]

theorem sendData_eq (cb : IntcpTransCB F nameLen) (buffer : Buffer) (start stop : UInt32) :
    (sendData P cb buffer start stop).2 = enqueueAll cb (sentSegs P buffer start stop) := by
  rw [sendData, sentSegs]
  split
  · exact (enqueueAll_nil cb).symm
  · exact sendSegs_eq _ cb buffer start _

theorem enqueue_eq (cb : IntcpTransCB F nameLen) (seg : IntcpSeg) :
    enqueue cb seg = enqueueAll cb [seg] := by
  have h := enqueueAll_enqueue cb seg []
  rwa [enqueueAll_nil] at h

/-- What `output` sends of a buffer. -/
def datagrams (data : List UInt8) : List (List UInt8) := if data.length = 0 then [] else [data]

lemma output_requester (cb : IntcpTransCB F nameLen) (data : List UInt8) :
    output cb data .requester = { cb with history := { cb.history with
      toRequester := cb.history.toRequester ++ datagrams data } } := by
  unfold output datagrams
  split
  · simp only [List.append_nil]
  · rfl

/-- A segment on its way out of the queue: the counters, and perhaps a datagram. -/
lemma flushSeg_cb (fl : Flushing F nameLen) (seg : IntcpSeg) :
    ∃ limit out, (flushSeg P fl seg).cb = { fl.cb with
      dataOutputLimit := limit
      reads := fl.cb.reads + 1
      dataNextSn := fl.cb.dataNextSn + 1
      sndQueueBytes := (fl.cb.sndQueueBytes.toUInt32 - (seg.len + intcpOverhead)).toInt32
      sndQueue := fl.cb.sndQueue.tail
      history := { fl.cb.history with toRequester := fl.cb.history.toRequester ++ out } } := by
  simp only [flushSeg, makeRoom, output_requester]
  split
  · exact ⟨_, datagrams fl.buf, rfl⟩
  · exact ⟨_, [], by simp only [List.append_nil]; rfl⟩

lemma flushSegs_frame (fl : Flushing F nameLen) (segs : List IntcpSeg) :
    ∃ limit n sn bytes queue out, (flushSegs P fl segs).2.cb = { fl.cb with
      dataOutputLimit := limit
      reads := n
      dataNextSn := sn
      sndQueueBytes := bytes
      sndQueue := queue
      history := { fl.cb.history with toRequester := out } } := by
  induction segs generalizing fl with
  | nil => exact ⟨_, _, _, _, _, _, rfl⟩
  | cons seg rest ih =>
    rw [flushSegs]
    split
    · exact ⟨_, _, _, _, _, _, rfl⟩
    · obtain ⟨limit, out, hcb⟩ := flushSeg_cb (P := P) fl seg
      obtain ⟨limit', n, sn, bytes, queue, out', hrest⟩ := ih (flushSeg P fl seg)
      refine ⟨limit', n, sn, bytes, queue, out', ?_⟩
      rw [hrest, hcb]

/-- `flushData` touches the send queue, the limit and what goes to the requester, and nothing else. -/
lemma flushData_frame (cb : IntcpTransCB F nameLen) :
    ∃ limit n sn bytes queue out, flushData P cb = { cb with
      dataOutputLimit := limit
      reads := n
      dataNextSn := sn
      sndQueueBytes := bytes
      sndQueue := queue
      history := { cb.history with toRequester := out } } := by
  simp only [flushData, output_requester, settleLimit]
  generalize hstart : Flushing.mk _ [] = fl
  obtain ⟨limit, n, sn, bytes, queue, out, hcb⟩ := flushSegs_frame (P := P) fl (tick cb).sndQueue
  rw [hcb, ← hstart]
  exact ⟨_, _, _, _, _, _, rfl⟩

/-- The datagram of an interest that is sent now. -/
def intDatagram (P : Platform F) (cb : IntcpTransCB F nameLen) (rangeStart rangeEnd : UInt32) :
    List UInt8 :=
  let cb' := { cb with reads := cb.reads + 1, lastSendIntTs := P.clock cb.reads }
  encodeSeg (intSeg rangeStart rangeEnd (P.clock cb.reads) cb.intNextSn P.raw (getDataSendRate P cb'))

theorem outputInt_eq (cb : IntcpTransCB F nameLen) (rangeStart rangeEnd : UInt32) :
    outputInt P cb rangeStart rangeEnd = { cb with
      reads := cb.reads + 1
      lastSendIntTs := P.clock cb.reads
      intNextSn := cb.intNextSn + 1
      history := { cb.history with
        toResponder := cb.history.toResponder ++ [intDatagram P cb rangeStart rangeEnd] } } := by
  simp only [outputInt, output, length_encodeSeg]
  rfl

/-- The state in which `update` flushes, if the timer has run out. -/
def ready (P : Platform F) (cb : IntcpTransCB F nameLen) : IntcpTransCB F nameLen :=
  firstUpdate (resetStat P (tick cb) (getMillisec P cb)) (getMillisec P cb)

def Due (P : Platform F) (cb : IntcpTransCB F nameLen) : Prop :=
  let slap := (getMillisec P cb - (ready P cb).nextFlushTs).toInt32
  slap ≥ 0 ∨ slap < -10000

instance (P : Platform F) (cb : IntcpTransCB F nameLen) : Decidable (Due P cb) :=
  inferInstanceAs (Decidable (_ ∨ _))

lemma ready_frame (cb : IntcpTransCB F nameLen) :
    ∃ updated next print rcvNxt rcvBuf n, updated ≠ 0 ∧ ready P cb = { cb with
      updated := updated
      nextFlushTs := next
      lastPrintTs := print
      rcvNxt := rcvNxt
      rcvBuf := rcvBuf
      reads := n } := by
  have hreset : ∃ print rcvNxt rcvBuf n, resetStat P (tick cb) (getMillisec P cb) =
      { cb with lastPrintTs := print, rcvNxt := rcvNxt, rcvBuf := rcvBuf, reads := n } := by
    rw [resetStat]
    split
    · exact ⟨_, _, _, _, rfl⟩
    · exact ⟨_, _, _, _, rfl⟩
  obtain ⟨print, rcvNxt, rcvBuf, n, hreset⟩ := hreset
  rw [ready, hreset, firstUpdate]
  split
  · exact ⟨1, _, _, _, _, _, by decide, rfl⟩
  · rename_i hupdated
    exact ⟨_, _, _, _, _, _, hupdated, rfl⟩

/-- `update` is a flush between changes of timers, or such changes alone. -/
lemma update_cases (cb : IntcpTransCB F nameLen) :
    (Due P cb → ∃ next : IntcpTransCB F nameLen → UInt32, update P cb =
      (flush P (ready P cb)).map fun sent => { sent with nextFlushTs := next sent }) ∧
    (¬ Due P cb → update P cb = some (ready P cb)) := by
  refine ⟨fun hdue => ?_, fun hdue => ?_⟩
  · have hupdate : update P cb = _ := if_pos hdue
    exact ⟨_, hupdate⟩
  · exact if_neg hdue

lemma toNat_intcpMss : intcpMss.toNat = 1449 := by decide

section Parts

variable {start stop : UInt32} (nowrap : start.toNat + 1449 < 2 ^ 32)

include nowrap

lemma toNat_nextPart : (start + intcpMss).toNat = start.toNat + 1449 := by
  rw [toNat_add_small] <;> rw [toNat_intcpMss]
  exact nowrap

lemma toNat_partEnd :
    (imin stop (start + intcpMss)).toNat = min stop.toNat (start.toNat + 1449) := by
  rw [toNat_imin, toNat_nextPart nowrap]

lemma lt_partEnd (more : start < stop) : start < imin stop (start + intcpMss) := by
  rw [UInt32.lt_iff_toNat_lt] at more
  rw [UInt32.lt_iff_toNat_lt, toNat_partEnd nowrap]
  omega

lemma toNat_partLen (more : start < stop) : (imin stop (start + intcpMss) - start).toNat =
    min stop.toNat (start.toNat + 1449) - start.toNat := by
  rw [toNat_sub_of_le (UInt32.le_of_lt (lt_partEnd nowrap more)), toNat_partEnd nowrap]

end Parts

/-- Each round goes on by a whole part, so the loop ends within its budget. -/
theorem serve_total {cb : IntcpTransCB F nameLen} (Inv Post : Serving F nameLen → Prop)
    {rangeStart rangeEnd : UInt32} (role : cb.nodeRole ≠ .requester)
    (round : ∀ st, Inv st → match servePass P rangeEnd st with
      | .leave st' => Post st'
      | .again st' => Inv st' ∧ st.segStart.toNat + 1449 = st'.segStart.toNat)
    (start : Inv ⟨cb, rangeStart, rangeStart⟩) : Post (serve P cb rangeStart rangeEnd) := by
  obtain ⟨st, hloop, hpost⟩ : ∃ st, loop (servePass P rangeEnd) serveBudget
      ⟨cb, rangeStart, rangeStart⟩ = some st ∧ Post st := by
    refine loop_total Inv Post (fun st => (2 ^ 32 - st.segStart.toNat) / 1449) ?_ ?_ start ?_
    · intro st st' inv hpass
      have hround := round st inv
      rw [hpass] at hround
      have hlt := st'.segStart.toNat_lt
      exact ⟨hround.1, by omega⟩
    · intro st st' inv hpass
      have hround := round st inv
      rwa [hpass] at hround
    · simp only [serveBudget]
      omega
  rw [serve, if_pos role, hloop]
  exact hpost

section Rules

variable (Inv : IntcpTransCB F nameLen → Prop)
  (fetch : ∀ cb s e, Inv cb → Inv (fetchData cb s e).2.2)
  (send : ∀ cb buffer start stop, Inv cb → Inv (enqueueAll cb (sentSegs P buffer start stop)))

include fetch send in
theorem serve_rule {cb : IntcpTransCB F nameLen} (start : Inv cb) (rangeStart rangeEnd : UInt32) :
    Inv (serve P cb rangeStart rangeEnd).cb := by
  rw [serve]
  split
  · refine loop_getD_invariant (fun st : Serving F nameLen => Inv st.cb)
      (fun st : Serving F nameLen => Inv st.cb) ?_ ?_ start start
    · intro st st' hst hpass
      rw [servePass] at hpass
      simp only [sendData_eq] at hpass
      split at hpass
      · split at hpass
        · cases hpass
        · split at hpass <;> cases hpass
          exact send _ _ _ _ (fetch _ _ _ hst)
      · cases hpass
    · intro st st' hst hpass
      rw [servePass] at hpass
      simp only [sendData_eq] at hpass
      split at hpass
      · split at hpass
        · cases hpass
          exact fetch _ _ _ hst
        · split at hpass <;> cases hpass
          exact send _ _ _ _ (fetch _ _ _ hst)
      · cases hpass
        exact hst
  · exact start

include fetch send in
/-- The rest of an interest goes to one of three places, by the role of the node. -/
theorem parseInt_rule (rangeStart rangeEnd : UInt32)
    (wait : ∀ cb ir, Inv cb → cb.nodeRole = .responder →
      Inv { cb with pendingInts := cb.pendingInts ++ [ir] })
    (ticked : ∀ cb, Inv cb → Inv (tick cb))
    (ask : ∀ cb s, Inv cb → cb.nodeRole = .requester → Inv (outputInt P cb s rangeEnd))
    (queue : ∀ cb s, Inv cb → s < rangeEnd → cb.nodeRole = .midnode →
      Inv (request P cb s rangeEnd).2)
    {cb : IntcpTransCB F nameLen} (start : Inv cb) : Inv (parseInt P cb rangeStart rangeEnd) := by
  have hserved := serve_rule (P := P) Inv fetch send start rangeStart rangeEnd
  rw [parseInt]
  split
  · exact start
  · simp only
    split
    · rename_i hrest
      cases hrole : (serve P cb rangeStart rangeEnd).cb.nodeRole with
      | responder => exact wait (tick (serve P cb rangeStart rangeEnd).cb) _ (ticked _ hserved) hrole
      | requester => exact ask _ _ hserved hrole
      | midnode => exact queue _ _ hserved hrest hrole
    · exact hserved

include send in
theorem releaseInts_rule (buffer : Buffer) (dataStart dataEnd : UInt32)
    {cb : IntcpTransCB F nameLen} (start : Inv cb) (pending : List ByteRange) :
    Inv (releaseInts P buffer dataStart dataEnd cb pending).1 := by
  induction pending generalizing cb with
  | nil => exact start
  | cons p rest ih =>
    rw [releaseInts]
    split
    · simp only [sendData_eq]
      exact ih (send _ _ _ _ start)
    · exact ih start

lemma splitInts_reads (rangeStart rangeEnd : UInt32) (cb : IntcpTransCB F nameLen)
    (segs : List IntcpSeg) :
    ∃ n, (splitInts P rangeStart rangeEnd cb segs).1 = { cb with reads := n } := by
  induction segs generalizing cb with
  | nil => exact ⟨cb.reads, rfl⟩
  | cons seg rest ih =>
    rw [splitInts]
    split
    · exact ⟨cb.reads, rfl⟩
    · split
      · exact ih cb
      · obtain ⟨n, hn⟩ := ih (tick cb)
        exact ⟨n, hn⟩

theorem flushHoles_rule (current : UInt32) (holes : List Hole)
    (erased : ∀ cb b, Inv cb → Inv (noteErased cb b))
    (parse : ∀ cb, ∀ hole ∈ holes, Inv cb → Inv (parseInt P cb hole.startByte hole.endByte))
    (split : ∀ cb, ∀ hole ∈ holes, Inv cb → cb.nodeRole = .requester →
      Inv (updateIntBuf P cb hole.startByte hole.endByte))
    {cb : IntcpTransCB F nameLen} (start : Inv cb) : Inv (flushHoles P current cb holes).1 := by
  induction holes generalizing cb with
  | nil => exact start
  | cons hole rest ih =>
    have hrest : ∀ cb, Inv cb → Inv (flushHoles P current cb rest).1 := fun cb h => ih
      (fun cb hole hh => parse cb hole (List.mem_cons_of_mem _ hh))
      (fun cb hole hh => split cb hole (List.mem_cons_of_mem _ hh)) h
    have hrecovered : ∀ cb, Inv cb → Inv (recoverHole P cb hole) := by
      intro cb h
      have hparsed := parse cb hole List.mem_cons_self h
      rw [recoverHole]
      split
      · rename_i hrole
        exact split _ hole List.mem_cons_self hparsed hrole
      · exact hparsed
    rw [flushHoles]
    simp only
    split
    · exact hrest _ (hrecovered _ (erased cb _ start))
    · exact hrest cb start

lemma flushHoles_sublist (current : UInt32) (cb : IntcpTransCB F nameLen) (holes : List Hole) :
    (flushHoles P current cb holes).2.Sublist holes := by
  induction holes generalizing cb with
  | nil => exact List.Sublist.refl _
  | cons hole rest ih =>
    rw [flushHoles]
    simp only
    split
    · exact (ih _).cons _
    · exact (ih _).cons_cons _

theorem measureHop_rule (ticked : ∀ cb, Inv cb → Inv (tick cb))
    (control : ∀ cb cc rest, Inv cb → Inv { cb with cc := cc, rmt_sndq_rest := rest })
    (announce : ∀ cb, Inv cb → cb.nodeRole ≠ .responder → Inv (outputInt P cb 0 0))
    {cb : IntcpTransCB F nameLen} (start : Inv cb) (current : UInt32) (s : IntcpSeg) :
    Inv (measureHop P cb current s) := by
  have flow : Inv (takeWnd cb s) := by
    rw [takeWnd]
    split
    · exact control cb cb.cc _ start
    · exact start
  have hop : Inv (sampleHop P (takeWnd cb s) current s) := control _ _ (takeWnd cb s).rmt_sndq_rest flow
  have window : ∀ cb, Inv cb → Inv (updateCwnd P cb s.len) :=
    fun cb h => control (tick cb) _ cb.rmt_sndq_rest (ticked cb h)
  rw [measureHop, announceRate]
  split
  · rename_i h
    exact announce _ (window _ hop) h.1
  · exact window _ hop

theorem inputLoop_rule (Good : IntcpSeg → Prop)
    (ticked : ∀ cb, Inv cb → Inv (tick cb))
    (interest : ∀ cb s, Inv cb → Good s → s.cmd = intcpCmdInt → Inv (inputInt P cb s))
    (push : ∀ cb current s, Inv cb → Good s → s.cmd = intcpCmdPush →
      Inv (inputPush P cb current s).2)
    (fuel : Nat) (data : List UInt8) (good : ∀ s ∈ (walk P.raw fuel data).2, Good s)
    {cb : IntcpTransCB F nameLen} (start : Inv cb) : Inv (inputLoop P fuel data cb).2 := by
  induction fuel generalizing data cb with
  | zero => exact start
  | succ fuel ih =>
    rw [inputLoop]
    rw [walk] at good
    have hticked := ticked cb start
    cases hnext : nextSeg P.raw data with
    | short => exact hticked
    | fault code => exact hticked
    | seg s rest =>
      simp only [hnext, List.mem_cons, forall_eq_or_imp] at good
      by_cases hcmd : s.cmd = intcpCmdInt
      · simp only [if_pos hcmd]
        exact ih rest good.2 (interest _ s hticked good.1 hcmd)
      · have hpush : s.cmd = intcpCmdPush := (nextSeg_cmd hnext).resolve_right hcmd
        have hpushed := push (tick cb) (getMillisec P cb) s hticked good.1 hpush
        simp only [if_neg hcmd]
        cases hgo : (inputPush P (tick cb) (getMillisec P cb) s).1 with
        | true => exact ih rest good.2 hpushed
        | false => exact hpushed

/-- A property kept for every segment that decoding can yield is kept by `input`. -/
theorem input_rule (Good : IntcpSeg → Prop)
    (ticked : ∀ cb, Inv cb → Inv (tick cb))
    (interest : ∀ cb s, Inv cb → Good s → s.cmd = intcpCmdInt → Inv (inputInt P cb s))
    (push : ∀ cb current s, Inv cb → Good s → s.cmd = intcpCmdPush →
      Inv (inputPush P cb current s).2)
    (data : List UInt8) (good : ∀ s ∈ (decode P.raw data).2, Good s)
    {cb : IntcpTransCB F nameLen} (start : Inv cb) : Inv (input P cb data).2 := by
  rw [input]
  split
  · exact start
  · exact inputLoop_rule Inv Good ticked interest push _ data good start

/-- What the loop of `flushData` keeps, with what is left of the queue. -/
theorem flushSegs_rule (Kept : Flushing F nameLen → List IntcpSeg → Prop)
    (step : ∀ fl seg rest, Kept fl (seg :: rest) → Kept (flushSeg P fl seg) rest)
    {fl : Flushing F nameLen} {segs : List IntcpSeg} (start : Kept fl segs) :
    ∃ rest, Kept (flushSegs P fl segs).2 rest := by
  induction segs generalizing fl with
  | nil => exact ⟨[], start⟩
  | cons seg rest ih =>
    rw [flushSegs]
    split
    · exact ⟨seg :: rest, start⟩
    · exact ih (step fl seg rest start)

lemma chargeLimit_role (cb : IntcpTransCB F nameLen) (size : UInt32) :
    (chargeLimit cb size).nodeRole = cb.nodeRole := by
  rw [chargeLimit]
  split <;> rfl

lemma sendInt_role (cb : IntcpTransCB F nameLen) (seg : IntcpSeg) :
    (sendInt P cb seg).nodeRole = cb.nodeRole := by
  rw [sendInt, outputInt_eq]
  rfl

/-- What the loop of `flushIntBuf` keeps, with the segments ahead of it. -/
theorem flushInts_rule (Kept : IntFlush F nameLen → List IntcpSeg → Prop)
    (keep : ∀ fl seg rest, Kept fl (seg :: rest) →
      Kept { fl with cb := tick fl.cb, kept := fl.kept ++ [seg] } rest)
    (stop : ∀ fl seg rest, Kept fl (seg :: rest) → fl.cb.nodeRole = .requester →
      Kept { fl with cb := tick fl.cb, kept := fl.kept ++ seg :: rest, reach_limit := true } [])
    (dead : ∀ fl seg rest size, Kept fl (seg :: rest) → seg.xmit ≥ intcpDeadlink →
      Kept { fl with
        cb := { chargeLimit (tick fl.cb) size with state := -1 }, kept := fl.kept ++ seg :: rest } [])
    (erase : ∀ fl seg rest n, Kept fl (seg :: rest) → fl.cb.nodeRole = .midnode →
      let cb := sendInt P (tick fl.cb) seg
      Kept { fl with
        cb := { cb with
          intBufBytes := (cb.intBufBytes.toUInt32 - (seg.rangeEnd - seg.rangeStart)).toInt32 }
        cntTimeout := n } rest)
    (resend : ∀ fl seg rest n size ts, Kept fl (seg :: rest) → fl.cb.nodeRole ≠ .midnode →
      Kept { fl with
        cb := sendInt P (chargeLimit (tick fl.cb) size) seg
        kept := fl.kept ++ [{ seg with xmit := seg.xmit + 1, ts := ts }]
        cntTimeout := n } rest)
    {fl : IntFlush F nameLen} {segs : List IntcpSeg} (start : Kept fl segs) :
    Kept (flushInts P fl segs) [] := by
  induction segs generalizing fl with
  | nil => exact start
  | cons seg rest ih =>
    rw [flushInts]
    simp only
    split
    · exact ih (keep fl seg rest start)
    · split
      · rename_i hlimit
        exact stop fl seg rest start hlimit.1
      · split
        · rename_i hdead
          exact dead fl seg rest _ start hdead
        · have hrole : (sendInt P (chargeLimit (tick fl.cb) (seg.rangeEnd - seg.rangeStart))
              seg).nodeRole = fl.cb.nodeRole := by
            rw [sendInt_role, chargeLimit_role]
            rfl
          split
          · rename_i hsent
            have hmid : fl.cb.nodeRole = .midnode := hrole.symm.trans hsent
            have hsame : chargeLimit (tick fl.cb) (seg.rangeEnd - seg.rangeStart) = tick fl.cb := by
              rw [chargeLimit, if_neg]
              intro h
              have hreq : fl.cb.nodeRole = .requester := h
              rw [hmid] at hreq
              cases hreq
            rw [hsame]
            exact ih (erase fl seg rest _ start hmid)
          · rename_i hsent
            exact ih (resend fl seg rest _ _ _ start fun hmid => hsent (hrole.trans hmid))

theorem flush_rule (ticked : ∀ cb, Inv cb → Inv (tick cb))
    (intQueue : ∀ cb cb', Inv cb → cb.nodeRole ≠ .responder → flushIntQueue P cb = some cb' → Inv cb')
    (intBuf : ∀ cb, Inv cb → Inv (flushIntBuf P cb))
    (holes : ∀ cb, Inv cb → cb.nodeRole ≠ .responder → Inv (flushDataHoles P cb))
    (data : ∀ cb, Inv cb → cb.nodeRole ≠ .requester → Inv (flushData P cb))
    (done : ∀ cb ts, Inv cb → Inv { cb with lastFlushTs := ts })
    {cb cb' : IntcpTransCB F nameLen} (start : Inv cb) (h : flush P cb = some cb') : Inv cb' := by
  have hticked := ticked cb start
  simp only [flush] at h
  split at h
  · cases h
    exact hticked
  · obtain ⟨sent, hsent, hlast⟩ := Option.map_eq_some_iff.mp h
    have hs : Inv sent := by
      rw [flushIntPart] at hsent
      split at hsent
      · cases hsent
        exact hticked
      · rename_i hrole
        obtain ⟨queued, hqueued, rfl⟩ := Option.map_eq_some_iff.mp hsent
        exact intBuf _ (intQueue _ _ hticked hrole hqueued)
    by_cases hdead : sent.state = -1
    · rw [if_pos hdead] at hlast
      exact hlast ▸ hs
    · rw [if_neg hdead] at hlast
      refine hlast ▸ done _ _ ?_
      have hh : Inv (flushHolePart P sent) := by
        rw [flushHolePart]
        split
        · exact hs
        · rename_i hrole
          exact holes _ hs hrole
      rw [flushDataPart]
      split
      · exact hh
      · rename_i hrole
        exact data _ hh hrole

/-- `update` is a flush between changes of timers and of `rcvBuf`. -/
theorem update_rule (ticked : ∀ cb, Inv cb → Inv (tick cb))
    (reset : ∀ cb now, Inv cb → Inv { cb with rcvNxt := 0, rcvBuf := [], lastPrintTs := now })
    (timers : ∀ cb updated next, Inv cb → Inv { cb with updated := updated, nextFlushTs := next })
    (flushed : ∀ cb cb', Inv cb → flush P cb = some cb' → Inv cb')
    {cb cb' : IntcpTransCB F nameLen} (start : Inv cb) (h : update P cb = some cb') : Inv cb' := by
  have hreset : ∀ cb current, Inv cb → Inv (resetStat P cb current) := by
    intro cb current hcb
    rw [resetStat]
    split
    · exact reset (tick cb) _ (ticked cb hcb)
    · exact hcb
  have hfirst : ∀ cb current, Inv cb → Inv (firstUpdate cb current) := by
    intro cb current hcb
    rw [firstUpdate]
    split
    · exact timers cb _ _ hcb
    · exact hcb
  have hready : Inv (ready P cb) := hfirst _ _ (hreset _ _ (ticked cb start))
  by_cases hdue : Due P cb
  · obtain ⟨next, hupdate⟩ := (update_cases cb).1 hdue
    rw [hupdate] at h
    obtain ⟨sent, hsent, rfl⟩ := Option.map_eq_some_iff.mp h
    exact timers sent sent.updated _ (flushed _ _ hready hsent)
  · rw [(update_cases cb).2 hdue] at h
    cases h
    exact hready

end Rules

end CallRules
