import Intcp.CallRules
import Mathlib.Logic.Relation

/-!
# The moves that calls are made of

What a call can do to the queues, the rate limit and the measurements of a node
is a sequence of a few moves; `flushData` is the only call that is none of
them. An invariant of these fields is one that every move and `flushData` keep.
-/

namespace NodeMoves

open FuelledLoop Words BlockCache TransControl SegmentCodec RateControl DataPlane HoleTracking
  InterestPlane NodeCore CallRules

universe u
variable {F : Type u} {nameLen : Nat}

/-- A segment that `int` can hold the size of. -/
def Sized (seg : IntcpSeg) : Prop := 23 + seg.len.toNat < 2 ^ 31

instance (seg : IntcpSeg) : Decidable (Sized seg) := inferInstanceAs (Decidable (_ < _))

/-- The fields that no timer, interest, hole or cache call writes. -/
structure Same (cb cb' : IntcpTransCB F nameLen) : Prop where
  nodeRole : cb'.nodeRole = cb.nodeRole
  sndQueue : cb'.sndQueue = cb.sndQueue
  dataOutputLimit : cb'.dataOutputLimit = cb.dataOutputLimit
  rmtSendRate : cb'.rmtSendRate = cb.rmtSendRate
  rcvQueue : cb'.rcvQueue = cb.rcvQueue
  rcvBuf : cb'.rcvBuf = cb.rcvBuf
  cc : cb'.cc = cb.cc

/-- What is known of the data segments that are measured, and of those that reach `rcvBuf`. -/
structure Traffic where
  Measured : IntcpSeg → Prop
  Arrived : IntcpSeg → Prop

def Traffic.any : Traffic := ⟨fun _ => True, fun _ => True⟩

inductive Move (P : Platform F) (T : Traffic) :
    IntcpTransCB F nameLen → IntcpTransCB F nameLen → Prop
  | idle {cb cb'} (same : Same cb cb') : Move P T cb cb'
  | queue (cb) (segs : List IntcpSeg) (sized : ∀ seg ∈ segs, Sized seg) :
      Move P T cb (enqueueAll cb segs)
  | rate (cb) (wnd : Int16) :
      Move P T cb { cb with rmtSendRate := fdiv P (fofInt P wnd.toInt) (fofInt P 100) }
  | loss (cb) (flag : Bool) :
      Move P T cb { cb with cc := { cb.cc with hasLossEvent := flag } }
  | measure (cb) (current : UInt32) (s : IntcpSeg) (measured : T.Measured s) :
      Move P T cb (sampleHop P cb current s)
  | window (cb) (dataLen : UInt32) : Move P T cb (updateCwnd P cb dataLen)
  | arrive (cb) (seg : IntcpSeg) (arrived : T.Arrived seg) :
      Move P T cb (moveToRcvQueue { cb with rcvBuf := cb.rcvBuf ++ [seg] })
  | reset (cb) : Move P T cb { cb with rcvBuf := [] }
  | deliver (cb) (maxBufSize : Int32) : Move P T cb (recv cb maxBufSize).2

def Moves (P : Platform F) (T : Traffic) (cb cb' : IntcpTransCB F nameLen) : Prop :=
  Relation.ReflTransGen (Move P T) cb cb'

/-- What every move keeps, moves keep. -/
theorem Moves.keep {P : Platform F} {T : Traffic} (Inv : IntcpTransCB F nameLen → Prop)
    (move : ∀ cb cb', Inv cb → Move P T cb cb' → Inv cb') {cb cb' : IntcpTransCB F nameLen}
    (moves : Moves P T cb cb') (start : Inv cb) : Inv cb' := by
  induction moves with
  | refl => exact start
  | tail _ hmove ih => exact move _ _ ih hmove

variable {P : Platform F} {T : Traffic} {first cb cb' : IntcpTransCB F nameLen}

lemma Moves.idle (moves : Moves P T first cb) (same : Same cb cb') :
    Moves P T first cb' :=
  moves.tail (.idle same)

lemma moves_tick (moves : Moves P T first cb) : Moves P T first (tick cb) :=
  moves.idle ⟨rfl, rfl, rfl, rfl, rfl, rfl, rfl⟩

lemma chunks_sized (fuel : Nat) (buffer : Buffer) (start len : UInt32) :
    ∀ seg ∈ chunks P fuel buffer start len, seg.len ≤ intcpMss := by
  induction fuel generalizing buffer start len with
  | zero => simp [chunks]
  | succ fuel ih =>
    rw [chunks]
    split
    · simp
    · refine List.forall_mem_cons.mpr ⟨?_, ih _ _ _⟩
      simp only [pushSeg]
      split
      · exact UInt32.le_refl _
      · rename_i hlen
        exact UInt32.not_lt.mp hlen

lemma sized_of_mss {seg : IntcpSeg} (h : seg.len ≤ intcpMss) : Sized seg := by
  have hmss : intcpMss.toNat = 1449 := rfl
  rw [UInt32.le_iff_toNat_le, hmss] at h
  rw [Sized]
  omega

lemma sentSegs_sized (buffer : Buffer) (start stop : UInt32) :
    ∀ seg ∈ sentSegs P buffer start stop, Sized seg := by
  rw [sentSegs]
  split
  · simp
  · exact fun seg hseg => sized_of_mss (chunks_sized _ _ _ _ seg hseg)

lemma moves_send (moves : Moves P T first cb) (buffer : Buffer) (start stop : UInt32) :
    Moves P T first (enqueueAll cb (sentSegs P buffer start stop)) :=
  moves.tail (.queue cb _ (sentSegs_sized buffer start stop))

lemma moves_outputInt (moves : Moves P T first cb) (s e : UInt32) :
    Moves P T first (outputInt P cb s e) := by
  rw [outputInt_eq]
  exact moves.idle ⟨rfl, rfl, rfl, rfl, rfl, rfl, rfl⟩

lemma moves_request (moves : Moves P T first cb) (s e : UInt32) :
    Moves P T first (request P cb s e).2 := by
  simp only [request]
  split
  · exact moves
  · split
    · exact moves.idle ⟨rfl, rfl, rfl, rfl, rfl, rfl, rfl⟩
    · exact moves.idle ⟨rfl, rfl, rfl, rfl, rfl, rfl, rfl⟩

lemma moves_parseInt (moves : Moves P T first cb) (s e : UInt32) :
    Moves P T first (parseInt P cb s e) := by
  apply parseInt_rule (Moves P T first) _ _ s e _ _ _ _ moves
  · intro cb s e h
    exact h.idle ⟨rfl, rfl, rfl, rfl, rfl, rfl, rfl⟩
  · intro cb buffer start stop h
    exact moves_send h buffer start stop
  · intro cb ir h _
    exact h.idle ⟨rfl, rfl, rfl, rfl, rfl, rfl, rfl⟩
  · intro cb h
    exact moves_tick h
  · intro cb s h _
    exact moves_outputInt h s e
  · intro cb s h _ _
    exact moves_request h s e

lemma moves_updateIntBuf (moves : Moves P T first cb) (s e : UInt32) :
    Moves P T first (updateIntBuf P cb s e) := by
  obtain ⟨n, hn⟩ := splitInts_reads (P := P) s e cb cb.intBuf
  rw [updateIntBuf, hn]
  exact moves.idle ⟨rfl, rfl, rfl, rfl, rfl, rfl, rfl⟩

lemma moves_header (moves : Moves P T first cb) (s e : UInt32) :
    Moves P T first (sendDataHeader P cb s e) := by
  rw [sendDataHeader, enqueue_eq]
  refine moves.tail (.queue cb _ ?_)
  simp [pushSeg, Sized]

lemma moves_detectDataHole (moves : Moves P T first cb) (s e : UInt32) :
    Moves P T first (detectDataHole P cb s e).2 := by
  simp only [detectDataHole]
  split
  · exact moves.idle ⟨rfl, rfl, rfl, rfl, rfl, rfl, rfl⟩
  · split
    · exact moves.idle ⟨rfl, rfl, rfl, rfl, rfl, rfl, rfl⟩
    · split
      · exact moves.idle ⟨rfl, rfl, rfl, rfl, rfl, rfl, rfl⟩
      · have hnew : Moves P T first (insertDataHole P cb cb.dataNextRangeStart s) :=
          moves.idle ⟨rfl, rfl, rfl, rfl, rfl, rfl, rfl⟩
        split
        · exact (moves_header hnew cb.dataNextRangeStart s).idle ⟨rfl, rfl, rfl, rfl, rfl, rfl, rfl⟩
        · exact hnew.idle ⟨rfl, rfl, rfl, rfl, rfl, rfl, rfl⟩

lemma moves_notifyNewData (moves : Moves P T first cb) (buffer : Buffer) (s e : UInt32) :
    Moves P T first (notifyNewData P cb buffer s e) := by
  have hreleased : Moves P T first (releaseInts P buffer s e cb cb.pendingInts).1 := by
    apply releaseInts_rule (Moves P T first) _ _ _ _ moves
    intro cb buffer start stop h
    exact moves_send h buffer start stop
  exact hreleased.idle ⟨rfl, rfl, rfl, rfl, rfl, rfl, rfl⟩

lemma moves_inputInt (moves : Moves P T first cb) (s : IntcpSeg) :
    Moves P T first (inputInt P cb s) := by
  have hrate := moves.tail (.rate cb s.wnd)
  have hset : Moves P T first { tick cb with
      intHopOwd := (getMillisec P cb - s.ts).toInt32
      rmtSendRate := fdiv P (fofInt P s.wnd.toInt) (fofInt P 100) } :=
    Moves.idle hrate ⟨rfl, rfl, rfl, rfl, rfl, rfl, rfl⟩
  simp only [inputInt]
  split
  · exact hset
  · exact moves_parseInt hset s.rangeStart s.rangeEnd

lemma moves_measureHop (moves : Moves P T first cb) (current : UInt32) {s : IntcpSeg}
    (measured : T.Measured s) : Moves P T first (measureHop P cb current s) := by
  have hwnd : Moves P T first (takeWnd cb s) := by
    rw [takeWnd]
    split
    · exact moves.idle ⟨rfl, rfl, rfl, rfl, rfl, rfl, rfl⟩
    · exact moves
  have hwindow := (hwnd.tail (.measure _ current s measured)).tail (.window _ s.len)
  rw [measureHop, announceRate]
  split
  · exact moves_outputInt hwindow 0 0
  · exact hwindow

lemma moves_detect (moves : Moves P T first cb) (s : IntcpSeg) :
    Moves P T first (detect P cb s) :=
  (moves_detectDataHole moves s.rangeStart s.rangeEnd).tail (.loss _ _)

lemma moves_parseData (moves : Moves P T first cb) (seg : IntcpSeg) (header : Bool)
    (sized : Sized seg) (arrived : header = false → T.Arrived seg) :
    Moves P T first (parseData cb seg header) := by
  have hsent : Moves P T first (if cb.nodeRole ≠ .requester then enqueue cb seg else cb) := by
    split
    · rw [enqueue_eq]
      exact moves.tail (.queue cb _ (by simpa using sized))
    · exact moves
  simp only [parseData]
  cases header with
  | true => exact hsent
  | false => exact hsent.tail (.arrive _ seg (arrived rfl))

/-- What is asked of the data segments in a datagram. -/
def Brings (P : Platform F) (T : Traffic) (s : IntcpSeg) : Prop :=
  Sized s ∧ T.Measured s ∧ (s.len ≠ 0 → s.rangeEnd - s.rangeStart = s.len → T.Arrived (rebuilt P s))

lemma moves_inputPush (moves : Moves P T first cb) (current : UInt32) {s : IntcpSeg}
    (brings : Brings P T s) : Moves P T first (inputPush P cb current s).2 := by
  have hdetected := moves_detect (moves_measureHop moves current brings.2.1) s
  simp only [inputPush]
  split
  · exact moves_parseData hdetected (rebuilt P s) true brings.1 nofun
  · rename_i hlen
    split
    · exact hdetected
    · rename_i hrange
      exact moves_parseData hdetected (rebuilt P s) false brings.1 fun _ =>
        brings.2.2 hlen (not_not.mp hrange)

lemma moves_input (moves : Moves P T first cb) {data : List UInt8}
    (brings : ∀ s ∈ (decode P.raw data).2, Brings P T s) :
    Moves P T first (input P cb data).2 := by
  apply input_rule (Moves P T first) (Brings P T) _ _ _ data brings moves
  · intro cb h
    exact moves_tick h
  · intro cb s h _ _
    exact moves_inputInt h s
  · intro cb current s h hs _
    exact moves_inputPush h current hs

lemma moves_flushIntQueue (moves : Moves P T first cb)
    (h : flushIntQueue P cb = some cb') : Moves P T first cb' := by
  refine loop_invariant (Moves P T first) (Moves P T first) ?_ ?_ moves h
  · intro s t hs hb
    rw [queuePass] at hb
    split at hb
    · cases hb
    · cases hb
      exact hs.idle ⟨rfl, rfl, rfl, rfl, rfl, rfl, rfl⟩
  · intro s r hs hb
    rw [queuePass] at hb
    split at hb <;> cases hb
    exact hs

lemma moves_chargeLimit (moves : Moves P T first cb) (size : UInt32) :
    Moves P T first (chargeLimit cb size) := by
  rw [chargeLimit]
  split
  · exact moves.idle ⟨rfl, rfl, rfl, rfl, rfl, rfl, rfl⟩
  · exact moves

lemma moves_sendInt (moves : Moves P T first cb) (seg : IntcpSeg) :
    Moves P T first (sendInt P cb seg) := by
  have hnoted : Moves P T first (noteTimeout cb seg) := moves.tail (.loss cb _)
  have hdeleted : Moves P T first
      (deleteDataHole (noteTimeout cb seg) seg.rangeStart seg.rangeEnd) :=
    hnoted.idle ⟨rfl, rfl, rfl, rfl, rfl, rfl, rfl⟩
  exact moves_outputInt hdeleted seg.rangeStart seg.rangeEnd

lemma moves_flushInts (fl : IntFlush F nameLen) (moves : Moves P T first fl.cb)
    (segs : List IntcpSeg) : Moves P T first (flushInts P fl segs).cb := by
  apply flushInts_rule (fun fl _ => Moves P T first fl.cb) _ _ _ _ _ moves
  · intro fl seg rest h
    exact moves_tick h
  · intro fl seg rest h _
    exact moves_tick h
  · intro fl seg rest size h _
    exact (moves_chargeLimit (moves_tick h) size).idle ⟨rfl, rfl, rfl, rfl, rfl, rfl, rfl⟩
  · intro fl seg rest n h _
    exact (moves_sendInt (moves_tick h) seg).idle ⟨rfl, rfl, rfl, rfl, rfl, rfl, rfl⟩
  · intro fl seg rest n size ts h _
    exact moves_sendInt (moves_chargeLimit (moves_tick h) size) seg

lemma moves_sendInts (moves : Moves P T first cb) (newOutput : Int32) :
    Moves P T first (sendInts P cb newOutput) := by
  have hsent := moves_flushInts ⟨cb, [], 0, false⟩ moves cb.intBuf
  simp only [sendInts]
  split
  · exact hsent.idle ⟨rfl, rfl, rfl, rfl, rfl, rfl, rfl⟩
  · exact hsent.idle ⟨rfl, rfl, rfl, rfl, rfl, rfl, rfl⟩

lemma moves_flushIntBuf (moves : Moves P T first cb) :
    Moves P T first (flushIntBuf P cb) := by
  rw [flushIntBuf]
  split
  · exact moves
  · apply moves_sendInts
    exact moves.idle ⟨rfl, rfl, rfl, rfl, rfl, rfl, rfl⟩

lemma moves_flushDataHoles (moves : Moves P T first cb) :
    Moves P T first (flushDataHoles P cb) := by
  have hflushed :
      Moves P T first (flushHoles P (getMillisec P cb) (tick cb) cb.dataHoles).1 := by
    apply flushHoles_rule (Moves P T first) _ _ _ _ _ (moves_tick moves)
    · intro cb b h
      exact h.idle ⟨rfl, rfl, rfl, rfl, rfl, rfl, rfl⟩
    · intro cb hole _ h
      exact moves_parseInt h hole.startByte hole.endByte
    · intro cb hole _ h _
      exact moves_updateIntBuf h hole.startByte hole.endByte
  exact hflushed.idle ⟨rfl, rfl, rfl, rfl, rfl, rfl, rfl⟩

/-- The state in which a flush comes to `flushData`, if it does. -/
def flushPoint (P : Platform F) (cb : IntcpTransCB F nameLen) : Option (IntcpTransCB F nameLen) :=
  if cb.updated = 0 then none
  else (flushIntPart P (tick cb)).bind fun sent =>
    if sent.state = -1 then none
    else
      let ready := flushHolePart P sent
      if ready.nodeRole = .requester then none else some ready

lemma moves_flushIntPart (moves : Moves P T first cb) (h : flushIntPart P cb = some cb') :
    Moves P T first cb' := by
  rw [flushIntPart] at h
  split at h
  · cases h
    exact moves
  · obtain ⟨queued, hqueued, rfl⟩ := Option.map_eq_some_iff.mp h
    exact moves_flushIntBuf (moves_flushIntQueue moves hqueued)

lemma moves_flushHolePart (moves : Moves P T first cb) :
    Moves P T first (flushHolePart P cb) := by
  rw [flushHolePart]
  split
  · exact moves
  · exact moves_flushDataHoles moves

lemma flushPoint_moves {ready : IntcpTransCB F nameLen} (moves : Moves P T first cb)
    (h : flushPoint P cb = some ready) : Moves P T first ready := by
  rw [flushPoint] at h
  split at h
  · cases h
  · obtain ⟨sent, hsent, hready⟩ := Option.bind_eq_some_iff.mp h
    have hmoves := moves_flushHolePart (moves_flushIntPart (moves_tick moves) hsent)
    split at hready
    · cases hready
    · simp only at hready
      split at hready
      · cases hready
      · cases hready
        exact hmoves

/-- A flush is `flushData` behind moves, or moves alone. -/
lemma flush_cases (moves : Moves P T first cb) (h : flush P cb = some cb') :
    (∃ ready ts, flushPoint P cb = some ready ∧ Moves P T first ready ∧
      cb' = { flushData P ready with lastFlushTs := ts }) ∨
    (flushPoint P cb = none ∧ Moves P T first cb') := by
  simp only [flush] at h
  by_cases hupdated : cb.updated = 0
  · have hupdated' : (tick cb).updated = 0 := hupdated
    rw [if_pos hupdated'] at h
    cases h
    exact .inr ⟨if_pos hupdated, moves_tick moves⟩
  · have hupdated' : ¬ (tick cb).updated = 0 := hupdated
    rw [if_neg hupdated'] at h
    obtain ⟨sent, hsent, hlast⟩ := Option.map_eq_some_iff.mp h
    have hmoves := moves_flushIntPart (moves_tick moves) hsent
    rw [flushPoint, if_neg hupdated, hsent, Option.bind_some]
    by_cases hdead : sent.state = -1
    · rw [if_pos hdead] at hlast ⊢
      exact .inr ⟨rfl, hlast ▸ hmoves⟩
    · have hready := moves_flushHolePart hmoves
      rw [if_neg hdead] at hlast ⊢
      rw [flushDataPart] at hlast
      by_cases hrole : (flushHolePart P sent).nodeRole = .requester
      · rw [if_pos hrole] at hlast
        refine .inr ⟨if_pos hrole, ?_⟩
        rw [← hlast]
        exact hready.idle ⟨rfl, rfl, rfl, rfl, rfl, rfl, rfl⟩
      · rw [if_neg hrole] at hlast
        exact .inl ⟨_, _, if_neg hrole, hready, hlast.symm⟩

lemma moves_ready (moves : Moves P T first cb) : Moves P T first (ready P cb) := by
  have hreset : Moves P T first (resetStat P (tick cb) (getMillisec P cb)) := by
    rw [resetStat]
    split
    · have hreset : Moves P T first { tick cb with rcvBuf := [] } :=
        (moves_tick moves).tail (.reset _)
      exact hreset.idle ⟨rfl, rfl, rfl, rfl, rfl, rfl, rfl⟩
    · exact moves_tick moves
  rw [ready, firstUpdate]
  split
  · exact hreset.idle ⟨rfl, rfl, rfl, rfl, rfl, rfl, rfl⟩
  · exact hreset

/-- The state in which an operation comes to `flushData`, if it does. -/
def dataPoint (P : Platform F) (op : Op nameLen) (cb : IntcpTransCB F nameLen) :
    Option (IntcpTransCB F nameLen) :=
  if cb.state = -1 then none
  else match op with
    | .flush => flushPoint P cb
    | .update => if Due P cb then flushPoint P (ready P cb) else none
    | _ => none

lemma dataPoint_moves {op : Op nameLen} {ready : IntcpTransCB F nameLen}
    (h : dataPoint P op cb = some ready) : Moves P T cb ready := by
  unfold dataPoint at h
  split at h
  · cases h
  · split at h
    · exact flushPoint_moves .refl h
    · split at h
      · exact flushPoint_moves (moves_ready .refl) h
      · cases h
    · cases h

/-- What an operation may bring into a node. -/
def OpBrings (P : Platform F) (T : Traffic) : Op nameLen → Prop
  | .input data => ∀ s ∈ (decode P.raw data).2, Brings P T s
  | .parseData seg header => Sized seg ∧ (header = false → T.Arrived seg)
  | _ => True

/-- What a call is given is as long as `int` can say. -/
def GivesSized : Op nameLen → Prop
  | .input data => data.length < 2 ^ 31
  | .parseData seg _ => Sized seg
  | _ => True

instance : ∀ op : Op nameLen, Decidable (GivesSized op)
  | .input _ => inferInstanceAs (Decidable (_ < _))
  | .request _ _ => inferInstanceAs (Decidable True)
  | .parseInt _ _ => inferInstanceAs (Decidable True)
  | .notifyNewData _ _ _ => inferInstanceAs (Decidable True)
  | .insertData _ _ _ => inferInstanceAs (Decidable True)
  | .sendData _ _ _ => inferInstanceAs (Decidable True)
  | .sendDataHeader _ _ => inferInstanceAs (Decidable True)
  | .parseData seg _ => inferInstanceAs (Decidable (Sized seg))
  | .recv _ => inferInstanceAs (Decidable True)
  | .flush => inferInstanceAs (Decidable True)
  | .update => inferInstanceAs (Decidable True)
  | .cacheInsert _ _ _ _ => inferInstanceAs (Decidable True)
  | .cacheRead _ _ _ => inferInstanceAs (Decidable True)

/-- No segment is longer than the datagram. -/
lemma opBrings_any {op : Op nameLen} (sized : GivesSized op) : OpBrings P .any op := by
  cases op with
  | input data =>
    intro s hs
    exact ⟨Nat.lt_of_le_of_lt (decode_length hs) sized, trivial, fun _ _ => trivial⟩
  | parseData seg header => exact ⟨sized, fun _ => trivial⟩
  | _ => trivial

/-- An operation is moves, and `flushData` behind them where it comes to that. -/
theorem step_cases {op : Op nameLen} (brings : OpBrings P T op)
    (h : op.step P cb = some cb') :
    (∃ ready ts next, dataPoint P op cb = some ready ∧ Moves P T cb ready ∧
      cb' = { flushData P ready with lastFlushTs := ts, nextFlushTs := next }) ∨
    (dataPoint P op cb = none ∧ Moves P T cb cb') := by
  have start : Moves P T cb cb := .refl
  rw [Op.step] at h
  unfold dataPoint
  split at h
  · rename_i hdead
    cases h
    exact .inr ⟨if_pos hdead, start⟩
  · rename_i halive
    rw [if_neg halive]
    cases op with
    | input data =>
      cases h
      exact .inr ⟨rfl, moves_input start brings⟩
    | request s e =>
      cases h
      exact .inr ⟨rfl, moves_request start s e⟩
    | parseInt s e =>
      cases h
      exact .inr ⟨rfl, moves_parseInt start s e⟩
    | notifyNewData buffer s e =>
      cases h
      exact .inr ⟨rfl, moves_notifyNewData start buffer s e⟩
    | insertData buffer s e =>
      obtain ⟨cache, _, rfl⟩ := Option.map_eq_some_iff.mp h
      refine .inr ⟨rfl, moves_notifyNewData ?_ buffer s e⟩
      exact start.idle ⟨rfl, rfl, rfl, rfl, rfl, rfl, rfl⟩
    | sendData buffer s e =>
      cases h
      refine .inr ⟨rfl, ?_⟩
      rw [sendData_eq]
      exact moves_send start buffer s e
    | sendDataHeader s e =>
      cases h
      exact .inr ⟨rfl, moves_header start s e⟩
    | parseData seg header =>
      cases h
      exact .inr ⟨rfl, moves_parseData start seg header brings.1 brings.2⟩
    | recv maxBufSize =>
      cases h
      exact .inr ⟨rfl, start.tail (.deliver cb maxBufSize)⟩
    | flush =>
      rcases flush_cases start h with ⟨ready, ts, hpoint, hmoves, hlast⟩ | ⟨hpoint, hmoves⟩
      · exact .inl ⟨ready, ts, (flushData P ready).nextFlushTs, hpoint, hmoves, hlast⟩
      · exact .inr ⟨hpoint, hmoves⟩
    | update =>
      have hready := moves_ready start
      by_cases hdue : Due P cb
      · obtain ⟨next, hupdate⟩ := (update_cases cb).1 hdue
        have hflush : update P cb = some cb' := h
        rw [hupdate] at hflush
        obtain ⟨sent, hsent, rfl⟩ := Option.map_eq_some_iff.mp hflush
        simp only [if_pos hdue]
        rcases flush_cases hready hsent with ⟨ready, ts, hpoint, hmoves, hlast⟩ | ⟨hpoint, hmoves⟩
        · exact .inl ⟨ready, ts, next sent, hpoint, hmoves, by rw [hlast]⟩
        · refine .inr ⟨hpoint, hmoves.idle ⟨rfl, rfl, rfl, rfl, rfl, rfl, rfl⟩⟩
      · have hflush : update P cb = some cb' := h
        rw [(update_cases cb).2 hdue] at hflush
        cases hflush
        exact .inr ⟨if_neg hdue, hready⟩
    | cacheInsert name s e dataBuf =>
      obtain ⟨cache, _, rfl⟩ := Option.map_eq_some_iff.mp h
      exact .inr ⟨rfl, start.idle ⟨rfl, rfl, rfl, rfl, rfl, rfl, rfl⟩⟩
    | cacheRead name s e =>
      cases h
      exact .inr ⟨rfl, start.idle ⟨rfl, rfl, rfl, rfl, rfl, rfl, rfl⟩⟩

end NodeMoves
