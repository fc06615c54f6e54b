import Intcp.CacheStream
import Intcp.DataFifo
import Intcp.HoleFlush
import Intcp.InterestSplit
import Intcp.MissingBytes

/-!
# A hop makes good what it lost

A requester asks once for every ripe hole. The station before it, if it has the
bytes in its cache, queues them, and when they come in they close the holes they
were asked for and reach the receive queue, whatever the requester did meanwhile.
-/

namespace HopRecovery

open StepRuns Words BlockCache CacheContents LastWrite CacheStream TransControl SegmentCodec
  RateControl DataPlane HoleTracking InterestPlane NodeCore CallRules SentRanges Spans HoleInvariants HoleRuns
  HoleFlush InterestFifo InterestSplit InputLoop DataFifo MissingBytes

universe u
variable {F : Type u} {nameLen : Nat} {P Q : Platform F}

/-- Datagrams come in one after the other. -/
def receive (P : Platform F) (cb : IntcpTransCB F nameLen) (datagrams : List (List UInt8)) :
    IntcpTransCB F nameLen :=
  datagrams.foldl (fun cb data => (input P cb data).2) cb

/-- The holes that a flush asks for. -/
def ripeHoles (P : Platform F) (cb : IntcpTransCB F nameLen) : List Hole :=
  cb.dataHoles.filter fun hole => decide (Ripe (getMillisec P cb) hole)

/-- An interest for the range of a hole. -/
def AsksFor (P : Platform F) (nameLen : Nat) (hole : Hole) (ask : List UInt8) : Prop :=
  ∃ cb : IntcpTransCB F nameLen, ask = intDatagram P cb hole.startByte hole.endByte

/-- One interest goes out for every hole, in order. -/
lemma recover_asks {cb : IntcpTransCB F nameLen} (requester : cb.nodeRole = .requester)
    {holes : List Hole} (proper : ∀ hole ∈ holes, hole.startByte < hole.endByte) :
    ∃ asks, (holes.foldl (recoverHole P) cb).history.toResponder = cb.history.toResponder ++ asks ∧
      List.Forall₂ (AsksFor P nameLen) holes asks := by
  induction holes generalizing cb with
  | nil => exact ⟨[], (List.append_nil _).symm, .nil⟩
  | cons hole rest ih =>
    obtain ⟨hhole, hrest⟩ := List.forall_mem_cons.mp proper
    obtain ⟨hrole, _, hsent⟩ := recoverHole_requester (P := P) requester hole
    rw [if_neg (UInt32.not_le.mpr hhole)] at hsent
    obtain ⟨asks, hasks, hall⟩ := ih hrole hrest
    refine ⟨intDatagram P cb hole.startByte hole.endByte :: asks, ?_, .cons ⟨cb, rfl⟩ hall⟩
    rw [List.foldl_cons, hasks, hsent, List.append_assoc, List.singleton_append]

/-- A flush asks for the ripe holes, where none has expired. -/
lemma flushDataHoles_asks {cb : IntcpTransCB F nameLen} (requester : cb.nodeRole = .requester)
    (proper : ∀ hole ∈ cb.dataHoles, hole.startByte < hole.endByte)
    (fresh : ∀ hole ∈ cb.dataHoles, ¬ Expired (getMillisec P cb) hole) :
    ∃ asks, (flushDataHoles P cb).history.toResponder = cb.history.toResponder ++ asks ∧
      List.Forall₂ (AsksFor P nameLen) (ripeHoles P cb) asks := by
  have hloop := flushHoles_ripe (P := P) (getMillisec P cb) (tick cb) fresh
  have hsent : (flushDataHoles P cb).history =
      (flushHoles P (getMillisec P cb) (tick cb) cb.dataHoles).1.history := rfl
  rw [hsent, hloop]
  exact recover_asks (show (tick cb).nodeRole = .requester from requester)
    fun hole hh => proper hole (List.mem_filter.mp hh).1

section Upstream

variable {up up' : IntcpTransCB F nameLen}

/-- What has happened to a station that was asked for bytes it holds. -/
structure Served (up up' : IntcpTransCB F nameLen) (segs : List IntcpSeg) : Prop where
  nodeRole : up'.nodeRole = up.nodeRole
  nameChars : up'.nameChars = up.nameChars
  dataMap : up'.cache.dataMap = up.cache.dataMap
  wellFormed : WellFormed up'.cache
  queued : up'.sndQueue = up.sndQueue ++ segs

lemma Served.holds {segs : List IntcpSeg} (served : Served up up' segs) (o : UInt32) (v : UInt8) :
    Holds up' o v ↔ Holds up o v := by
  rw [Holds, Holds, served.nameChars]
  exact cached_congr served.dataMap up.nameChars o v

/-- An interest in cached bytes is served whole, and nothing of it is handed on. -/
lemma parseInt_served (up : IntcpTransCB F nameLen) (wf : WellFormed up.cache)
    (role : up.nodeRole ≠ .requester) {s e : UInt32} (proper : Proper s e)
    (cached : ∀ o, s ≤ o → o < e → ∃ v, Holds up o v) :
    ∃ segs, Served up (parseInt P up s e) segs ∧ Covers (Holds up) s segs e := by
  have done := serve_done (P := P) wf role proper
  obtain ⟨segs, sent⟩ := done.sent
  have hend : (serve P up s e).sentEnd = e := by
    rcases UInt32.lt_or_eq_of_le done.within with hshort | hwhole
    · obtain ⟨v, hv⟩ := cached _ sent.covers.le hshort
      exact absurd hv (done.gap hshort v)
    · exact hwhole
  have hparsed : parseInt P up s e = (serve P up s e).cb := by
    rw [parseInt, if_neg (UInt32.not_le.mpr proper.1)]
    simp only [hend, if_neg (UInt32.lt_irrefl e)]
  refine ⟨segs, ⟨?_, ?_, hparsed ▸ sent.dataMap, hparsed ▸ sent.wellFormed, ?_⟩,
    hend ▸ sent.covers⟩
  · rw [hparsed, sent.queued]
    rfl
  · rw [hparsed, sent.queued]
    rfl
  · rw [hparsed, sent.queued]
    rfl

/-- The datagram that asks for them does just that. -/
lemma input_ask (wf : WellFormed up.cache) (role : up.nodeRole ≠ .requester) {hole : Hole}
    {ask : List UInt8} (asksFor : AsksFor P nameLen hole ask)
    (proper : Proper hole.startByte hole.endByte)
    (cached : ∀ o, hole.startByte ≤ o → o < hole.endByte → ∃ v, Holds up o v) :
    ∃ segs, Served up (input Q up ask).2 segs ∧
      Covers (Holds up) hole.startByte segs hole.endByte := by
  obtain ⟨down, rfl⟩ := asksFor
  obtain ⟨n, hn⟩ := input_handleAll (P := Q) up (intDatagram P down hole.startByte hole.endByte)
  obtain ⟨got, hdecode, hcmd, hstart, hend⟩ :
      ∃ got, (decode Q.raw (intDatagram P down hole.startByte hole.endByte)).2 = [got] ∧
        got.cmd = intcpCmdInt ∧ got.rangeStart = hole.startByte ∧ got.rangeEnd = hole.endByte :=
    ⟨_, decode_intSeg hole.startByte hole.endByte _ _ _ _, rfl, rfl, rfl⟩
  have hsome : ¬ (hole.startByte = 0 ∧ hole.endByte = 0) := by
    rintro ⟨hzero, hzero'⟩
    have hlt := proper.1
    rw [hzero, hzero'] at hlt
    exact absurd hlt (by decide)
  have hhandled : ∃ owd rate m, (handleAll Q up [got]).2 =
      parseInt Q { up with intHopOwd := owd, rmtSendRate := rate, reads := m }
        hole.startByte hole.endByte := by
    refine ⟨(getMillisec Q (tick up) - got.ts).toInt32, fdiv Q (fofInt Q got.wnd.toInt) (fofInt Q 100),
      up.reads + 1 + 1, ?_⟩
    rw [handleAll, handle, if_pos hcmd]
    simp only [inputInt, hstart, hend, if_neg hsome, handleAll, if_true]
    rfl
  obtain ⟨owd, rate, m, hparsed⟩ := hhandled
  obtain ⟨segs, served, covers⟩ := parseInt_served (P := Q)
    { up with intHopOwd := owd, rmtSendRate := rate, reads := m } wf role proper cached
  refine ⟨segs, ?_, covers⟩
  rw [hn, hdecode, hparsed]
  exact ⟨served.nodeRole, served.nameChars, served.dataMap, served.wellFormed, served.queued⟩

/-- All of the interests are answered, in order. -/
lemma receive_asks (wf : WellFormed up.cache) (role : up.nodeRole ≠ .requester) {holes : List Hole}
    {asks : List (List UInt8)} (asksFor : List.Forall₂ (AsksFor P nameLen) holes asks)
    (proper : ∀ hole ∈ holes, Proper hole.startByte hole.endByte)
    (cached : ∀ hole ∈ holes, ∀ o, hole.startByte ≤ o → o < hole.endByte → ∃ v, Holds up o v) :
    ∃ answers, (receive Q up asks).sndQueue = up.sndQueue ++ answers.flatten ∧
      List.Forall₂ (fun hole segs => Covers (Holds up) hole.startByte segs hole.endByte)
        holes answers := by
  induction asksFor generalizing up with
  | nil => exact ⟨[], (List.append_nil _).symm, .nil⟩
  | @cons hole ask holes asks hask _ ih =>
    obtain ⟨hhole, hrest⟩ := List.forall_mem_cons.mp proper
    obtain ⟨hheld, hlater⟩ := List.forall_mem_cons.mp cached
    obtain ⟨segs, served, covers⟩ := input_ask (Q := Q) wf role hask hhole hheld
    obtain ⟨answers, hqueue, hall⟩ := ih served.wellFormed (served.nodeRole ▸ role) hrest
      fun x hx o hs he => (hlater x hx o hs he).imp fun v hv => (served.holds o v).mpr hv
    refine ⟨segs :: answers, ?_, .cons covers (hall.imp fun x segs hx => ?_)⟩
    · rw [receive, List.foldl_cons, ← receive, hqueue, served.queued, List.flatten_cons,
        List.append_assoc]
    · exact hx.mono fun o v _ _ hv => (served.holds o v).mp hv

end Upstream

section Downstream

variable {down : IntcpTransCB F nameLen}

/-- What the application has yet to take. -/
def delivered (cb : IntcpTransCB F nameLen) : List IntcpSeg := cb.rcvQueue ++ cb.rcvBuf

/-- The bytes of a segment with their offsets. -/
def labelled (seg : IntcpSeg) : List (UInt8 × Nat) := seg.data.zipIdx seg.rangeStart.toNat

/-- The bytes of a hole with their offsets. -/
def wanted (content : UInt32 → UInt8) (hole : Hole) : List (UInt8 × Nat) :=
  (List.range' hole.startByte.toNat (hole.endByte.toNat - hole.startByte.toNat)).map
    fun o => (content (UInt32.ofNat o), o)

/-- A data segment that lies behind the cursor. -/
structure Behind (cursor : UInt32) (seg : IntcpSeg) : Prop where
  command : seg.cmd = intcpCmdPush
  nonempty : seg.len ≠ 0
  full : seg.rangeEnd - seg.rangeStart = seg.len
  proper : seg.rangeStart < seg.rangeEnd
  below : seg.rangeEnd ≤ cursor

/-- The fields that the arrival of data before hole detection leaves alone. -/
structure Waits (cb cb' : IntcpTransCB F nameLen) : Prop where
  nodeRole : cb'.nodeRole = cb.nodeRole
  holes : SameHoles cb cb'
  rcvQueue : cb'.rcvQueue = cb.rcvQueue
  rcvBuf : cb'.rcvBuf = cb.rcvBuf

lemma measureHop_waits (cb : IntcpTransCB F nameLen) (current : UInt32) (s : IntcpSeg) :
    Waits cb (measureHop P cb current s) := by
  refine measureHop_rule (Waits cb) ?_ ?_ ?_ ⟨rfl, ⟨rfl, rfl⟩, rfl, rfl⟩ current s
  · exact fun _ h => ⟨h.nodeRole, h.holes, h.rcvQueue, h.rcvBuf⟩
  · exact fun _ _ _ h => ⟨h.nodeRole, h.holes, h.rcvQueue, h.rcvBuf⟩
  · intro c h _
    rw [outputInt_eq]
    exact ⟨h.nodeRole, h.holes, h.rcvQueue, h.rcvBuf⟩

/-- What is known of a requester after data from behind its cursor has come in. -/
structure Filled (before after : IntcpTransCB F nameLen) (segs : List IntcpSeg) : Prop where
  requester : after.nodeRole = .requester
  cursor : after.dataNextRangeStart = before.dataNextRangeStart
  ordered : Ordered (after.dataHoles.map span)
  missing : ∀ o, Missing after o ↔ Missing before o ∧ ∀ seg ∈ segs, ¬ Within seg o
  delivered : delivered after = delivered before ++ segs.map (rebuilt P)

/-- Such a segment only cuts its range out of the holes and joins what is to be delivered. -/
lemma handle_behind (requester : down.nodeRole = .requester)
    (ordered : Ordered (down.dataHoles.map span)) {seg : IntcpSeg}
    (behind : Behind down.dataNextRangeStart seg) :
    (handle P down seg).1 = true ∧ Filled (P := P) down (handle P down seg).2 [seg] := by
  have hcmd : seg.cmd ≠ intcpCmdInt := behind.command ▸ by decide
  have hwaits := measureHop_waits (P := P) (tick down) (getMillisec P down) seg
  have hlt : seg.rangeStart < down.dataNextRangeStart :=
    UInt32.lt_of_lt_of_le behind.proper behind.below
  generalize hmeasured : measureHop P (tick down) (getMillisec P down) seg = here at hwaits
  have hcursor : here.dataNextRangeStart = down.dataNextRangeStart := hwaits.holes.2
  have hdetected : (detect P here seg) = { here with
      dataHoles := cutHoles seg.rangeStart seg.rangeEnd here.dataHoles } := by
    have hbefore : seg.rangeStart < here.dataNextRangeStart := hcursor ▸ hlt
    simp only [detect, detectDataHole, if_neg (UInt32.ne_of_lt hbefore), if_pos hbefore,
      deleteDataHole, Bool.or_false]
  have hrole : here.nodeRole = .requester := hwaits.nodeRole.trans requester
  have hpushed : parseData (detect P here seg) (rebuilt P seg) false = { here with
      dataHoles := cutHoles seg.rangeStart seg.rangeEnd here.dataHoles
      rcvQueue := here.rcvQueue ++ (here.rcvBuf ++ [rebuilt P seg])
      rcvBuf := [] } := by
    simp only [hdetected, parseData, hrole, ne_eq, not_true_eq_false, if_false, Bool.false_eq_true,
      moveToRcvQueue]
  have hhandle : handle P down seg = (true, parseData (detect P here seg) (rebuilt P seg) false) := by
    rw [handle, if_neg hcmd]
    simp only [inputPush, hmeasured, if_neg behind.nonempty, behind.full, ne_eq, not_true_eq_false,
      if_false]
  rw [hhandle, hpushed]
  have hholes : here.dataHoles = down.dataHoles := hwaits.holes.1
  refine ⟨rfl, hrole, hcursor, ?_, fun o => ?_, ?_⟩
  · rw [hholes, span_cutHoles behind.proper ordered]
    exact ordered_minusAll (UInt32.le_iff_toNat_le.mp (UInt32.le_of_lt behind.proper)) ordered
  · rw [Missing, Missing, hholes, cover_cutHoles behind.proper ordered, Set.mem_sdiff,
      List.forall_mem_singleton]
    rfl
  · have hqueue : here.rcvQueue = down.rcvQueue := hwaits.rcvQueue
    have hbuf : here.rcvBuf = down.rcvBuf := hwaits.rcvBuf
    simp only [HopRecovery.delivered, hqueue, hbuf, List.append_nil, List.append_assoc,
      List.map_singleton]

lemma Filled.refl (requester : down.nodeRole = .requester)
    (ordered : Ordered (down.dataHoles.map span)) : Filled (P := P) down down [] :=
  ⟨requester, rfl, ordered, fun o => by simp, (List.append_nil _).symm⟩

lemma Filled.trans {first second third : IntcpTransCB F nameLen} {segs more : List IntcpSeg}
    (h : Filled (P := P) first second segs) (h' : Filled (P := P) second third more) :
    Filled (P := P) first third (segs ++ more) := by
  refine ⟨h'.requester, h'.cursor.trans h.cursor, h'.ordered, fun o => ?_, ?_⟩
  · rw [h'.missing, h.missing, List.forall_mem_append, and_assoc]
  · rw [h'.delivered, h.delivered, List.map_append, List.append_assoc]

lemma handleAll_behind (requester : down.nodeRole = .requester)
    (ordered : Ordered (down.dataHoles.map span)) {segs : List IntcpSeg}
    (behind : ∀ seg ∈ segs, Behind down.dataNextRangeStart seg) :
    Filled (P := P) down (handleAll P down segs).2 segs := by
  induction segs generalizing down with
  | nil => exact .refl requester ordered
  | cons seg rest ih =>
    obtain ⟨hseg, hrest⟩ := List.forall_mem_cons.mp behind
    obtain ⟨hgo, hfilled⟩ := handle_behind (P := P) requester ordered hseg
    rw [handleAll]
    simp only [hgo, if_true]
    exact hfilled.trans (ih hfilled.requester hfilled.ordered (hfilled.cursor.symm ▸ hrest))

/-- The same for datagrams. -/
lemma receive_behind (requester : down.nodeRole = .requester)
    (ordered : Ordered (down.dataHoles.map span)) {answers : List (List UInt8)}
    (behind : ∀ seg ∈ answers.flatMap fun data => (decode P.raw data).2,
      Behind down.dataNextRangeStart seg) :
    Filled (P := P) down (receive P down answers)
      (answers.flatMap fun data => (decode P.raw data).2) := by
  induction answers generalizing down with
  | nil => exact .refl requester ordered
  | cons data rest ih =>
    rw [List.flatMap_cons] at behind ⊢
    obtain ⟨hhere, hlater⟩ := List.forall_mem_append.mp behind
    have hhandled := handleAll_behind (P := P) requester ordered hhere
    obtain ⟨n, hn⟩ := input_handleAll (P := P) down data
    have hfilled : Filled (P := P) down (input P down data).2 (decode P.raw data).2 := by
      rw [hn]
      exact ⟨hhandled.requester, hhandled.cursor, hhandled.ordered, hhandled.missing,
        hhandled.delivered⟩
    rw [receive, List.foldl_cons, ← receive]
    exact hfilled.trans (ih hfilled.requester hfilled.ordered (hfilled.cursor.symm ▸ hlater))

end Downstream

section Covering

variable {Holds : UInt32 → UInt8 → Prop} {content : UInt32 → UInt8} {a b : UInt32}
  {segs : List IntcpSeg}

lemma covers_chunk (covers : Covers Holds a segs b) :
    ∀ seg ∈ segs, ∃ start, Chunk Holds start seg ∧ seg.rangeEnd ≤ b := by
  induction segs generalizing a with
  | nil => simp
  | cons seg rest ih =>
    exact List.forall_mem_cons.mpr ⟨⟨a, covers.1, covers.2.le⟩, ih covers.2⟩

/-- The offsets of the segments are those of the range. -/
lemma covers_within (covers : Covers Holds a segs b) (o : Nat) :
    (∃ seg ∈ segs, Within seg o) ↔ a.toNat ≤ o ∧ o < b.toNat := by
  induction segs generalizing a with
  | nil =>
    have hsame : a = b := covers
    simp [hsame]
  | cons seg rest ih =>
    have hstart := congrArg UInt32.toNat covers.1.start
    have hstop := covers.1.stop
    have hle := UInt32.le_iff_toNat_le.mp covers.2.le
    simp only [List.mem_cons, exists_eq_or_imp, ih covers.2]
    rw [Within]
    omega

/-- So are their bytes, if they are those of a content. -/
lemma covers_labelled (covers : Covers (fun o v => v = content o) a segs b) :
    segs.flatMap labelled = (List.range' a.toNat (b.toNat - a.toNat)).map
      fun o => (content (UInt32.ofNat o), o) := by
  induction segs generalizing a with
  | nil =>
    have hsame : a = b := covers
    simp [hsame]
  | cons seg rest ih =>
    obtain ⟨chunk, hrest⟩ := covers
    have hstart := congrArg UInt32.toNat chunk.start
    have hstop := chunk.stop
    have hle := UInt32.le_iff_toNat_le.mp hrest.le
    have hhead : labelled seg = (List.range' a.toNat seg.len.toNat).map
        fun o => (content (UInt32.ofNat o), o) := by
      apply List.ext_getElem
      · rw [labelled, List.length_zipIdx, List.length_map, List.length_range', seg.dataLen]
      · intro i hi _
        rw [labelled, List.length_zipIdx] at hi
        have hoffset := chunk.offset hi
        have hbyte : a + UInt32.ofNat i = UInt32.ofNat (a.toNat + 1 * i) := by
          rw [Nat.one_mul, ← hoffset, UInt32.ofNat_toNat]
        simp only [labelled, List.getElem_zipIdx, List.getElem_map, List.getElem_range', hstart,
          chunk.payload i hi, hbyte, Nat.one_mul]
    have hsplit : b.toNat - a.toNat = seg.len.toNat + (b.toNat - seg.rangeEnd.toNat) := by omega
    rw [List.flatMap_cons, hhead, ih hrest, hsplit, ← List.range'_append_1, List.map_append, hstop]

end Covering

/-- The segments for one hole after the other, as they were queued. -/
abbrev Answers (Holds : UInt32 → UInt8 → Prop) (holes : List Hole)
    (answers : List (List IntcpSeg)) : Prop :=
  List.Forall₂ (fun hole segs => Covers Holds hole.startByte segs hole.endByte) holes answers

section Answers

variable {Holds : UInt32 → UInt8 → Prop} {content : UInt32 → UInt8} {holes : List Hole}
  {answers : List (List IntcpSeg)}

lemma answers_chunk (all : Answers Holds holes answers) :
    ∀ seg ∈ answers.flatten, ∃ hole ∈ holes, ∃ start, Chunk Holds start seg ∧
      seg.rangeEnd ≤ hole.endByte := by
  induction all with
  | nil => simp
  | @cons hole segs holes answers covers _ ih =>
    intro seg hseg
    rcases List.mem_append.mp hseg with hhere | hlater
    · exact ⟨hole, List.mem_cons_self, covers_chunk covers seg hhere⟩
    · obtain ⟨other, hmem, hchunk⟩ := ih seg hlater
      exact ⟨other, List.mem_cons_of_mem hole hmem, hchunk⟩

lemma answers_within (all : Answers Holds holes answers) (o : Nat) :
    (∃ seg ∈ answers.flatten, Within seg o) ↔ o ∈ cover (holes.map span) := by
  induction all with
  | nil => simp
  | @cons hole segs holes answers covers _ ih =>
    rw [List.map_cons, cover_cons, Set.mem_union, ← ih]
    simp only [List.flatten_cons, List.mem_append, or_and_right, exists_or, covers_within covers]
    rfl

lemma answers_labelled (all : Answers (fun o v => v = content o) holes answers) :
    answers.flatten.flatMap labelled = holes.flatMap (wanted content) := by
  induction all with
  | nil => rfl
  | cons covers _ ih =>
    rw [List.flatten_cons, List.flatMap_append, List.flatMap_cons, ih, covers_labelled covers]
    rfl

/-- A cache holds one byte for an offset. -/
lemma answers_content {up : IntcpTransCB F nameLen} (all : Answers (InterestSplit.Holds up) holes answers)
    (cached : ∀ hole ∈ holes, ∀ o, hole.startByte ≤ o → o < hole.endByte →
      InterestSplit.Holds up o (content o)) : Answers (fun o v => v = content o) holes answers := by
  induction all with
  | nil => exact .nil
  | cons covers _ ih =>
    obtain ⟨hhole, hrest⟩ := List.forall_mem_cons.mp cached
    refine .cons (covers.mono fun o v hs he hv => ?_) (ih hrest)
    exact cached_unique hv (hhole o hs he)

end Answers

lemma chunk_whole {Holds : UInt32 → UInt8 → Prop} {start : UInt32} {seg : IntcpSeg}
    (chunk : Chunk Holds start seg) : Whole seg := by
  have hstart := congrArg UInt32.toNat chunk.start
  have hstop := chunk.stop
  refine ⟨chunk.command, .inr ?_⟩
  rw [← UInt32.toNat_inj, Words.toNat_sub_of_le]
  · omega
  · rw [UInt32.le_iff_toNat_le]
    omega

/-- The copies that come in are as whole as the chunks that were queued. -/
lemma forwarded_behind {role : Role} {got seg : IntcpSeg} {Holds : UInt32 → UInt8 → Prop}
    {start cursor : UInt32} (forwarded : Forwarded role got seg) (chunk : Chunk Holds start seg)
    (below : seg.rangeEnd ≤ cursor) : Behind cursor got := by
  have hstop := chunk.stop
  have hstart := congrArg UInt32.toNat chunk.start
  have hpos := chunk.nonempty
  refine ⟨forwarded.cmd.trans chunk.command, ?_, ?_, ?_, ?_⟩
  · rw [forwarded.len]
    rintro hzero
    rw [hzero] at hpos
    exact absurd hpos (by decide)
  · rw [forwarded.len, forwarded.rangeStart, forwarded.rangeEnd]
    refine (chunk_whole chunk).2.resolve_left fun hzero => ?_
    rw [hzero] at hpos
    exact absurd hpos (by decide)
  · rw [forwarded.rangeStart, forwarded.rangeEnd, UInt32.lt_iff_toNat_lt]
    omega
  · rw [forwarded.rangeEnd]
    exact below

section Copies

variable {role : Role} {got segs : List IntcpSeg} (copies : List.Forall₂ (Forwarded role) got segs)

include copies

lemma copies_behind {Holds : UInt32 → UInt8 → Prop} {cursor : UInt32}
    (chunks : ∀ seg ∈ segs, ∃ start, Chunk Holds start seg ∧ seg.rangeEnd ≤ cursor) :
    ∀ x ∈ got, Behind cursor x := by
  induction copies with
  | nil => simp
  | cons forwarded _ ih =>
    obtain ⟨⟨_, chunk, below⟩, hrest⟩ := List.forall_mem_cons.mp chunks
    exact List.forall_mem_cons.mpr ⟨forwarded_behind forwarded chunk below, ih hrest⟩

lemma copies_within (o : Nat) : (∃ x ∈ got, Within x o) ↔ ∃ seg ∈ segs, Within seg o := by
  induction copies with
  | nil => exact Iff.rfl
  | cons forwarded _ ih =>
    simp only [List.mem_cons, exists_eq_or_imp, ih]
    rw [Within, Within, forwarded.rangeStart, forwarded.rangeEnd]

lemma copies_labelled : got.flatMap labelled = segs.flatMap labelled := by
  induction copies with
  | nil => rfl
  | cons forwarded _ ih =>
    rw [List.flatMap_cons, List.flatMap_cons, ih, labelled, labelled, forwarded.data,
      forwarded.rangeStart]

end Copies

/-- The holes are closed, and their bytes are delivered, in order and once. -/
structure Recovered (content : UInt32 → UInt8) (holes : List Hole)
    (before after : IntcpTransCB F nameLen) : Prop where
  cursor : after.dataNextRangeStart = before.dataNextRangeStart
  missing : ∀ o, Missing after o ↔ Missing before o ∧ o ∉ cover (holes.map span)
  delivered : ∃ got, delivered after = delivered before ++ got ∧
    got.flatMap labelled = holes.flatMap (wanted content)

/-- A midnode that has the first 100 bytes of the stream. -/
lemma holding : ∃ cache, BlockCache.insert (Cache.fresh fun _ _ => 0) #v[110] 0 100 (fun _ => 7) =
    some cache ∧ WellFormed cache ∧ ∀ o : UInt32, o < 100 → Cached cache #v[110] o 7 := by
  have room : Room (Cache.fresh fun _ _ => 0) #v[110] 0 100 := by decide
  obtain ⟨cache, hinsert, written⟩ := insert_written (fresh_wellFormed fun _ _ => 0)
    (by decide : (0 : UInt32) < 100) (by decide) (fun _ => 7) room
  refine ⟨cache, hinsert, written.wellFormed, fun o ho => ?_⟩
  have hblock : firstBlock o = 0 := by
    rw [UInt32.lt_iff_toNat_lt] at ho
    have hlt : o.toNat < 100 := ho
    rw [← UInt32.toNat_inj, toNat_firstBlock, UInt32.toNat_zero]
    omega
  refine written.fresh o (UInt32.zero_le) ho ?_ ?_
  · rw [hblock]
    decide
  · rw [hblock, written.order]
    decide

end HopRecovery
