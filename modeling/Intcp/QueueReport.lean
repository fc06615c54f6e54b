import Intcp.DataFifo

/-!
# The report of the responder's queue

`flushData` at the responder writes into every data segment how many segments
its send queue is short of `INTCP_SNDQ_MAX`, in 16 bits, and the requester
multiplies the field out again. A field of 0 means that the segment comes from a
cache, and the requester keeps what it had.
-/

namespace QueueReport

open Words BlockCache TransControl SegmentCodec RateControl DataPlane HoleTracking InterestPlane
  NodeCore CallRules InputLoop DataFifo

universe u
variable {F : Type u} {nameLen : Nat} {P : Platform F}

/-- A midnode on the way, in the state in which it sends the segment on. -/
structure Relay (F : Type u) (nameLen : Nat) where
  platform : Platform F
  node : IntcpTransCB F nameLen
  mid : node.nodeRole = .midnode

/-- What a midnode makes of a datagram that it passes on whole. -/
def Relay.pass (relay : Relay F nameLen) (data : List UInt8) : List UInt8 :=
  (accepted relay.platform data).flatMap fun seg =>
    frame (stamp relay.platform relay.node (rebuilt relay.platform seg))

def passOn (relays : List (Relay F nameLen)) (data : List UInt8) : List UInt8 :=
  relays.foldl (fun data relay => relay.pass data) data

/-- The room that a send queue of `bytes` bytes leaves, in whole segments; negative if over. -/
def roomOf (bytes : Int) : Int :=
  ((intcpSndqMax.toNat : Int) / intcpMss.toNat - bytes / intcpMss.toNat) * intcpMss.toNat

/-- The segments queued beyond the limit are not too many for 16 bits, and the queue is not
within one segment of the limit, where the report reads as none; or the requester has the
right value without it. -/
def Reportable (bytes kept : Int) : Prop :=
  if (bytes / 1449 - 5) % 2 ^ 16 = 0 then kept = roomOf bytes else bytes / 1449 ≤ 32773

instance (bytes kept : Int) : Decidable (Reportable bytes kept) :=
  inferInstanceAs (Decidable (if (bytes / 1449 - 5) % 2 ^ 16 = 0 then kept = roomOf bytes
    else bytes / 1449 ≤ 32773))

lemma getIntDev_toInt {cb : IntcpTransCB F nameLen} (nonneg : 0 ≤ cb.sndQueueBytes.toInt) :
    (getIntDev cb).toInt = (5 - cb.sndQueueBytes.toInt / 1449).bmod (2 ^ 16) := by
  have hword := toNat_toUInt32 cb.sndQueueBytes
  have hmss : intcpMss.toNat = 1449 := rfl
  have hfive : (intcpSndqMax / intcpMss).toUInt16.toInt16.toInt = 5 := rfl
  have hcount : (cb.sndQueueBytes.toUInt32 / intcpMss).toUInt16.toInt16.toInt =
      (cb.sndQueueBytes.toInt / 1449).bmod (2 ^ 16) := by
    have hbits : ∀ w : UInt16, w.toInt16.toInt = w.toBitVec.toInt := fun w => rfl
    rw [if_pos nonneg] at hword
    rw [hbits, BitVec.toInt_eq_toNat_bmod, UInt16.toNat_toBitVec, UInt32.toNat_toUInt16,
      UInt32.toNat_div, hmss, ← hword, Int.natCast_mod, Int.emod_bmod, Int.natCast_ediv]
    rfl
  rw [getIntDev, Int16.toInt_sub, hfive, hcount, Int.sub_bmod_bmod]

/-- Multiplying out a 16-bit field does not overflow. -/
lemma toInt_multiplied (wnd : Int16) :
    (wnd.toInt32.toUInt32 * intcpMss).toInt32.toInt = wnd.toInt * 1449 := by
  have hlow := wnd.le_toInt
  have hhigh := wnd.toInt_lt
  have hmss : intcpMss.toInt32.toInt = 1449 := rfl
  rw [UInt32.toInt32_mul, Int32.toInt32_toUInt32, Int32.toInt_mul, hmss, Int16.toInt_toInt32]
  apply Int.bmod_eq_of_le <;> omega

lemma accepted_frame {seg : IntcpSeg} (sendable : Sendable seg) (whole : Whole seg) :
    accepted P (frame seg) = [received P.raw seg] := by
  have hsegs : ∀ s ∈ [seg], Sendable s := by simpa using sendable
  have hdecoded := decode_frames P.raw hsegs
  have hconsistent : Consistent (received P.raw seg) := Or.inr whole.2
  rw [List.flatMap_singleton] at hdecoded
  rw [accepted, hdecoded]
  simp [hconsistent]

/-- A report on the wire: what the requester finds in a datagram of one segment with payload. -/
structure Carries (wnd : Int16) (data : List UInt8) (seg : IntcpSeg) : Prop where
  bytes : data = frame seg
  sendable : Sendable seg
  whole : Whole seg
  payload : seg.len ≠ 0
  wnd : seg.wnd = wnd

lemma Carries.pass {wnd : Int16} {data : List UInt8} {seg : IntcpSeg}
    (carries : Carries wnd data seg) (relay : Relay F nameLen) :
    ∃ seg', Carries wnd (relay.pass data) seg' := by
  have hrole : relay.node.nodeRole ≠ .responder := by
    rw [relay.mid]
    decide
  refine ⟨stamp relay.platform relay.node
    (rebuilt relay.platform (received relay.platform.raw seg)), ?_,
    ⟨carries.sendable.command, carries.sendable.length⟩, carries.whole, carries.payload, ?_⟩
  · rw [Relay.pass, carries.bytes, accepted_frame carries.sendable carries.whole,
      List.flatMap_singleton]
  · have hkept : ∀ s, (stamp relay.platform relay.node s).wnd = s.wnd := fun s => if_neg hrole
    rw [hkept]
    exact carries.wnd

/-- The midnodes leave the report alone. -/
lemma Carries.passOn {wnd : Int16} {data : List UInt8} {seg : IntcpSeg}
    (carries : Carries wnd data seg) (relays : List (Relay F nameLen)) :
    ∃ seg', Carries wnd (QueueReport.passOn relays data) seg' := by
  induction relays generalizing data seg with
  | nil => exact ⟨seg, carries⟩
  | cons relay rest ih =>
    obtain ⟨_, hnext⟩ := carries.pass relay
    exact ih hnext

lemma takeWnd_rest (cb : IntcpTransCB F nameLen) {s : IntcpSeg} (payload : s.len ≠ 0) :
    (takeWnd cb s).rmt_sndq_rest.toInt =
      if s.wnd = 0 then cb.rmt_sndq_rest.toInt else s.wnd.toInt * 1449 := by
  rw [takeWnd]
  by_cases hwnd : s.wnd = 0
  · rw [if_pos hwnd, if_neg fun h => h.2 hwnd]
  · rw [if_neg hwnd, if_pos ⟨payload, hwnd⟩]
    exact toInt_multiplied s.wnd

lemma measureHop_rest (cb : IntcpTransCB F nameLen) (current : UInt32) (s : IntcpSeg) :
    (measureHop P cb current s).rmt_sndq_rest = (takeWnd cb s).rmt_sndq_rest := by
  have hwindow : ∀ (cb : IntcpTransCB F nameLen) dataLen,
      (updateCwnd P cb dataLen).rmt_sndq_rest = cb.rmt_sndq_rest := fun _ _ => rfl
  rw [measureHop, announceRate]
  split
  · simp only [outputInt_eq, hwindow, sampleHop]
  · simp only [hwindow, sampleHop]

lemma detect_rest (cb : IntcpTransCB F nameLen) (s : IntcpSeg) :
    (detect P cb s).rmt_sndq_rest = cb.rmt_sndq_rest := by
  simp only [detect, detectDataHole]
  split
  · rfl
  · split
    · rfl
    · split
      · rfl
      · split <;> rfl

lemma parseData_rest (cb : IntcpTransCB F nameLen) (seg : IntcpSeg) (header : Bool) :
    (parseData cb seg header).rmt_sndq_rest = cb.rmt_sndq_rest := by
  simp only [parseData]
  split <;> split <;> rfl

/-- Only the window field of a data segment changes the room that a node knows of. -/
lemma inputPush_rest (cb : IntcpTransCB F nameLen) (current : UInt32) (s : IntcpSeg) :
    (inputPush P cb current s).2.rmt_sndq_rest = (takeWnd cb s).rmt_sndq_rest := by
  have hmeasured := (detect_rest (P := P) _ s).trans (measureHop_rest (P := P) cb current s)
  simp only [inputPush]
  split
  · exact (parseData_rest _ _ _).trans hmeasured
  · split
    · exact hmeasured
    · exact (parseData_rest _ _ _).trans hmeasured

lemma input_rest {cb : IntcpTransCB F nameLen} {wnd : Int16} {data : List UInt8} {seg : IntcpSeg}
    (carries : Carries wnd data seg) :
    (input P cb data).2.rmt_sndq_rest.toInt =
      if wnd = 0 then cb.rmt_sndq_rest.toInt else wnd.toInt * 1449 := by
  obtain ⟨n, hfold⟩ := input_handleAll (P := P) cb data
  have hsegs : ∀ s ∈ [seg], Sendable s := by simpa using carries.sendable
  have hdecoded := decode_frames P.raw hsegs
  have hpush : (received P.raw seg).cmd ≠ intcpCmdInt := by
    have hcmd : (received P.raw seg).cmd = intcpCmdPush := carries.whole.1
    rw [hcmd]
    decide
  have hone : (handleAll P cb [received P.raw seg]).2 =
      (inputPush P (tick cb) (getMillisec P cb) (received P.raw seg)).2 := by
    rw [handleAll, handle, if_neg hpush]
    simp only [handleAll]
    split <;> rfl
  rw [List.flatMap_singleton, ← carries.bytes] at hdecoded
  rw [hfold, hdecoded, List.map_singleton]
  simp only [hone, inputPush_rest]
  rw [← carries.wnd]
  exact takeWnd_rest (tick cb) carries.payload

/-- What the requester makes of the report, in numbers. -/
lemma report_numbers {bytes : Int} (nonneg : 0 ≤ bytes) (kept : Int) {wnd : Int}
    (sent : wnd = (5 - bytes / 1449).bmod (2 ^ 16)) :
    (if wnd = 0 then kept else wnd * 1449) = roomOf bytes ↔ Reportable bytes kept := by
  have hroom : roomOf bytes = (5 - bytes / 1449) * 1449 := rfl
  rw [Int.bmod_def] at sent
  rw [Reportable, hroom]
  split at sent <;> split <;> split <;> omega

lemma carries_stamp {cb : IntcpTransCB F nameLen} (responder : cb.nodeRole = .responder)
    {seg : IntcpSeg} (sendable : Sendable seg) (whole : Whole seg) (payload : seg.len ≠ 0) :
    Carries (getIntDev cb) (frame (stamp P cb seg)) (stamp P cb seg) :=
  ⟨rfl, ⟨sendable.command, sendable.length⟩, whole, payload, if_pos responder⟩

/-- The requester knows the room at the moment of stamping exactly if it is reportable. -/
theorem report_survives_iff {resp req : IntcpTransCB F nameLen}
    (responder : resp.nodeRole = .responder)
    (nonneg : 0 ≤ resp.sndQueueBytes.toInt) {seg : IntcpSeg} (sendable : Sendable seg)
    (whole : Whole seg) (payload : seg.len ≠ 0) (relays : List (Relay F nameLen))
    (P Q : Platform F) :
    (input Q req (passOn relays (frame (stamp P resp seg)))).2.rmt_sndq_rest.toInt =
        roomOf resp.sndQueueBytes.toInt ↔
      Reportable resp.sndQueueBytes.toInt req.rmt_sndq_rest.toInt := by
  obtain ⟨_, carries⟩ :=
    (carries_stamp (P := P) responder sendable whole payload).passOn relays
  have hzero : getIntDev resp = 0 ↔ (getIntDev resp).toInt = 0 := by
    rw [← Int16.toInt_inj]
    rfl
  have hnumbers := report_numbers nonneg req.rmt_sndq_rest.toInt (getIntDev_toInt nonneg)
  simp only [input_rest (P := Q) carries, hzero]
  exact hnumbers

/-- A responder with one byte and then 7106 more in its queue, which count 7245 with their
headers. -/
def fullQueue : IntcpTransCB Rat 1 :=
  let first := sendData freeClock (.create freeClock .responder #v[113] (Cache.fresh fun _ _ => 0))
    (fun _ => 3) 0 1
  (sendData freeClock first.2 (fun _ => 3) 1 7107).2

/-- The segment at the head of that queue. -/
def oneByte : IntcpSeg := pushSeg freeClock 0 1 1 [3] rfl

def freshRequester : IntcpTransCB Rat 1 :=
  .create freeClock .requester fullQueue.nameChars (Cache.fresh fun _ _ => 0)

def freshRelay : Relay Rat 1 := ⟨freeClock, { freshRequester with nodeRole := .midnode }, rfl⟩

/-- What the requester has for the room after the segment at the head has come to it. -/
def roomSeen (bytes : Int32) : Int :=
  let stamped := stamp freeClock { fullQueue with sndQueueBytes := bytes } oneByte
  (input freeClock freshRequester (passOn [freshRelay] (frame stamped))).2.rmt_sndq_rest.toInt

/-- With one byte in the queue it learns of all the room but what is begun. -/
theorem report_survives_oneByte : roomSeen 24 = roomOf 24 :=
  (report_survives_iff rfl (by decide) ⟨Or.inl rfl, by decide⟩ ⟨rfl, Or.inr rfl⟩ (by decide)
    [freshRelay] freeClock freeClock).mpr (by decide +kernel)

/-- A queue at the limit is reported as no report, and the requester goes on seeing room. -/
theorem full_queue_unreported :
    fullQueue.sndQueue.head? = some oneByte ∧ roomOf fullQueue.sndQueueBytes.toInt = 0 ∧
      roomSeen fullQueue.sndQueueBytes = 7245 := by
  decide +kernel

end QueueReport
