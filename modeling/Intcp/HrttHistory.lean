import Intcp.HopRtt
import Mathlib.Data.List.TakeWhile

/-!
# The history of hop RTTs

`updateCwnd` keeps the samples of the last `HrttMinWnd` in `hrttQueue` and reads
the last one of them to decide whether a new one is due. Nothing else touches the
queue, so it is empty until the first data segment.
-/

namespace HrttHistory

open FuelledLoop StepRuns Words BlockCache TransControl SegmentCodec RateControl DataPlane
  HoleTracking InterestPlane NodeCore CallRules InputLoop HopRtt

universe u
variable {F : Type u} {nameLen : Nat} {P : Platform F}

def IsInterest (P : Platform F) (nameLen : Nat) (data : List UInt8) : Prop :=
  ∃ (cb : IntcpTransCB F nameLen) (s e : UInt32), data = intDatagram P cb s e

/-- From `first` to `cb` nothing was measured: of the control state only the loss signal may
differ, and the responder was sent nothing but interests. -/
structure Unmeasured (P : Platform F) (first cb : IntcpTransCB F nameLen) : Prop where
  role : cb.nodeRole = first.nodeRole
  control : ∃ flag, cb.cc = { first.cc with hasLossEvent := flag }
  sent : ∃ more, cb.history.toResponder = first.history.toResponder ++ more ∧
    ∀ data ∈ more, IsInterest P nameLen data

variable {first cb cb' : IntcpTransCB F nameLen}

lemma Unmeasured.refl (cb : IntcpTransCB F nameLen) : Unmeasured P cb cb :=
  ⟨rfl, ⟨_, rfl⟩, [], (List.append_nil _).symm, nofun⟩

lemma Unmeasured.same (h : Unmeasured P first cb) (role : cb'.nodeRole = cb.nodeRole)
    (control : cb'.cc = cb.cc) (sent : cb'.history.toResponder = cb.history.toResponder) :
    Unmeasured P first cb' :=
  ⟨role.trans h.role, control ▸ h.control, sent ▸ h.sent⟩

lemma Unmeasured.hrttQueue (h : Unmeasured P first cb) :
    cb.cc.hrttQueue = first.cc.hrttQueue := by
  obtain ⟨flag, hcc⟩ := h.control
  rw [hcc]

lemma Unmeasured.hopSrtt (h : Unmeasured P first cb) : cb.cc.hopSrtt = first.cc.hopSrtt := by
  obtain ⟨flag, hcc⟩ := h.control
  rw [hcc]

lemma Unmeasured.loss (h : Unmeasured P first cb) (flag : Bool) :
    Unmeasured P first { cb with cc := { cb.cc with hasLossEvent := flag } } := by
  obtain ⟨_, hcc⟩ := h.control
  exact ⟨h.role, ⟨flag, by rw [hcc]⟩, h.sent⟩

lemma unmeasured_tick (h : Unmeasured P first cb) : Unmeasured P first (tick cb) :=
  h.same rfl rfl rfl

lemma unmeasured_outputInt (h : Unmeasured P first cb) (s e : UInt32) :
    Unmeasured P first (outputInt P cb s e) := by
  obtain ⟨more, hsent, hinterests⟩ := h.sent
  rw [outputInt_eq]
  refine ⟨h.role, h.control, more ++ [intDatagram P cb s e], ?_, ?_⟩
  · rw [← List.append_assoc, ← hsent]
  · intro data hdata
    rcases List.mem_append.mp hdata with hdata | hdata
    · exact hinterests data hdata
    · exact ⟨cb, s, e, List.mem_singleton.mp hdata⟩

lemma unmeasured_request (h : Unmeasured P first cb) (s e : UInt32) :
    Unmeasured P first (request P cb s e).2 := by
  simp only [request]
  split
  · exact h
  · split <;> exact h.same rfl rfl rfl

lemma unmeasured_parseInt (h : Unmeasured P first cb) (s e : UInt32) :
    Unmeasured P first (parseInt P cb s e) := by
  apply parseInt_rule (Unmeasured P first) _ _ s e _ _ _ _ h
  · exact fun cb s e h => h.same rfl rfl rfl
  · exact fun cb buffer start stop h => h.same rfl rfl rfl
  · exact fun cb ir h _ => h.same rfl rfl rfl
  · exact fun cb h => unmeasured_tick h
  · exact fun cb s h _ => unmeasured_outputInt h s e
  · exact fun cb s h _ _ => unmeasured_request h s e

lemma unmeasured_notifyNewData (h : Unmeasured P first cb) (buffer : Buffer) (s e : UInt32) :
    Unmeasured P first (notifyNewData P cb buffer s e) := by
  have hreleased : Unmeasured P first (releaseInts P buffer s e cb cb.pendingInts).1 := by
    apply releaseInts_rule (Unmeasured P first) _ _ _ _ h
    exact fun cb buffer start stop h => h.same rfl rfl rfl
  exact hreleased.same rfl rfl rfl

lemma unmeasured_detect (h : Unmeasured P first cb) (s : IntcpSeg) :
    Unmeasured P first (detect P cb s) := by
  have hdetected : Unmeasured P first (detectDataHole P cb s.rangeStart s.rangeEnd).2 := by
    simp only [detectDataHole]
    split
    · exact h.same rfl rfl rfl
    · split
      · exact h.same rfl rfl rfl
      · split
        · exact h.same rfl rfl rfl
        · split <;> exact h.same rfl rfl rfl
  exact hdetected.loss _

lemma unmeasured_parseData (h : Unmeasured P first cb) (seg : IntcpSeg) (header : Bool) :
    Unmeasured P first (parseData cb seg header) := by
  simp only [parseData]
  split <;> split <;> exact h.same rfl rfl rfl

lemma unmeasured_recv (h : Unmeasured P first cb) (maxBufSize : Int32) :
    Unmeasured P first (recv cb maxBufSize).2 := by
  rw [recv]
  split
  · exact h
  · split
    · split
      · exact h.same rfl rfl rfl
      · split
        · exact h.same rfl rfl rfl
        · exact h
    · exact h.same rfl rfl rfl

lemma unmeasured_inputInt (h : Unmeasured P first cb) (s : IntcpSeg) :
    Unmeasured P first (inputInt P cb s) := by
  have hset : Unmeasured P first { tick cb with
      intHopOwd := (getMillisec P cb - s.ts).toInt32
      rmtSendRate := fdiv P (fofInt P s.wnd.toInt) (fofInt P 100) } := h.same rfl rfl rfl
  simp only [inputInt]
  split
  · exact hset
  · exact unmeasured_parseInt hset s.rangeStart s.rangeEnd

lemma unmeasured_flushIntQueue (h : Unmeasured P first cb) (step : flushIntQueue P cb = some cb') :
    Unmeasured P first cb' := by
  refine loop_invariant (Unmeasured P first) (Unmeasured P first) ?_ ?_ h step
  · intro s t hs hb
    rw [queuePass] at hb
    split at hb
    · cases hb
    · cases hb
      exact hs.same rfl rfl rfl
  · intro s r hs hb
    rw [queuePass] at hb
    split at hb <;> cases hb
    exact hs

lemma unmeasured_chargeLimit (h : Unmeasured P first cb) (size : UInt32) :
    Unmeasured P first (chargeLimit cb size) := by
  rw [chargeLimit]
  split <;> exact h.same rfl rfl rfl

lemma unmeasured_sendInt (h : Unmeasured P first cb) (seg : IntcpSeg) :
    Unmeasured P first (sendInt P cb seg) := by
  have hnoted : Unmeasured P first (noteTimeout cb seg) := h.loss _
  have hdeleted : Unmeasured P first
      (deleteDataHole (noteTimeout cb seg) seg.rangeStart seg.rangeEnd) := hnoted.same rfl rfl rfl
  exact unmeasured_outputInt hdeleted seg.rangeStart seg.rangeEnd

lemma unmeasured_flushInts (fl : IntFlush F nameLen) (h : Unmeasured P first fl.cb)
    (segs : List IntcpSeg) : Unmeasured P first (flushInts P fl segs).cb := by
  apply flushInts_rule (fun fl _ => Unmeasured P first fl.cb) _ _ _ _ _ h
  · exact fun fl seg rest h => h.same rfl rfl rfl
  · exact fun fl seg rest h _ => h.same rfl rfl rfl
  · intro fl seg rest size h _
    exact (unmeasured_chargeLimit (unmeasured_tick h) size).same rfl rfl rfl
  · intro fl seg rest n h _
    exact (unmeasured_sendInt (P := P) (unmeasured_tick h) seg).same rfl rfl rfl
  · intro fl seg rest n size ts h _
    exact unmeasured_sendInt (unmeasured_chargeLimit (unmeasured_tick h) size) seg

lemma unmeasured_flushIntBuf (h : Unmeasured P first cb) :
    Unmeasured P first (flushIntBuf P cb) := by
  rw [flushIntBuf]
  split
  · exact h
  · simp only [sendInts]
    generalize hstart : IntFlush.mk _ [] 0 false = fl
    have hfl : Unmeasured P first fl.cb := by
      rw [← hstart]
      exact h.same rfl rfl rfl
    have hsent := fun segs => unmeasured_flushInts (P := P) fl hfl segs
    split <;> exact (hsent _).same rfl rfl rfl

lemma unmeasured_flushDataHoles (h : Unmeasured P first cb) :
    Unmeasured P first (flushDataHoles P cb) := by
  have hflushed :
      Unmeasured P first (flushHoles P (getMillisec P cb) (tick cb) cb.dataHoles).1 := by
    apply flushHoles_rule (Unmeasured P first) _ _ _ _ _ (unmeasured_tick h)
    · exact fun cb b h => h.same rfl rfl rfl
    · exact fun cb hole _ h => unmeasured_parseInt h hole.startByte hole.endByte
    · intro cb hole _ h _
      obtain ⟨n, hn⟩ := splitInts_reads (P := P) hole.startByte hole.endByte cb cb.intBuf
      rw [updateIntBuf, hn]
      exact h.same rfl rfl rfl
  exact hflushed.same rfl rfl rfl

lemma unmeasured_flush (h : Unmeasured P first cb) (step : flush P cb = some cb') :
    Unmeasured P first cb' := by
  apply flush_rule (Unmeasured P first) _ _ _ _ _ _ h step
  · exact fun cb h => unmeasured_tick h
  · exact fun cb cb' h _ hqueue => unmeasured_flushIntQueue h hqueue
  · exact fun cb h => unmeasured_flushIntBuf h
  · exact fun cb h _ => unmeasured_flushDataHoles h
  · intro cb h _
    obtain ⟨_, _, _, _, _, _, hframe⟩ := flushData_frame (P := P) cb
    rw [hframe]
    exact h.same rfl rfl rfl
  · exact fun cb ts h => h.same rfl rfl rfl

lemma unmeasured_update (h : Unmeasured P first cb) (step : update P cb = some cb') :
    Unmeasured P first cb' := by
  apply update_rule (Unmeasured P first) _ _ _ _ h step
  · exact fun cb h => unmeasured_tick h
  · exact fun cb now h => h.same rfl rfl rfl
  · exact fun cb updated next h => h.same rfl rfl rfl
  · exact fun cb cb' h hflush => unmeasured_flush h hflush

/-- The operations other than `input` measure nothing. -/
lemma step_unmeasured {op : Op nameLen} (silent : ∀ data, op ≠ .input data)
    (step : op.step P cb = some cb') : Unmeasured P cb cb' := by
  have start : Unmeasured P cb cb := .refl cb
  rw [Op.step] at step
  split at step
  · cases step
    exact start
  · cases op with
    | input data => exact absurd rfl (silent data)
    | request s e =>
      cases step
      exact unmeasured_request start s e
    | parseInt s e =>
      cases step
      exact unmeasured_parseInt start s e
    | notifyNewData buffer s e =>
      cases step
      exact unmeasured_notifyNewData start buffer s e
    | insertData buffer s e =>
      obtain ⟨cache, _, rfl⟩ := Option.map_eq_some_iff.mp step
      have hcached : Unmeasured P cb { cb with cache := cache } := start.same rfl rfl rfl
      exact unmeasured_notifyNewData hcached buffer s e
    | sendData buffer s e =>
      cases step
      rw [sendData_eq]
      exact start.same rfl rfl rfl
    | sendDataHeader s e =>
      cases step
      exact start.same rfl rfl rfl
    | parseData seg header =>
      cases step
      exact unmeasured_parseData start seg header
    | recv maxBufSize =>
      cases step
      exact unmeasured_recv start maxBufSize
    | flush => exact unmeasured_flush start step
    | update => exact unmeasured_update start step
    | cacheInsert name s e dataBuf =>
      obtain ⟨cache, _, rfl⟩ := Option.map_eq_some_iff.mp step
      exact start.same rfl rfl rfl
    | cacheRead name s e =>
      cases step
      exact start.same rfl rfl rfl

/-- What the loop of `updateCwnd` leaves of the queue, when a segment is handled. -/
def recentHrtt (P : Platform F) (cb : IntcpTransCB F nameLen) : List (UInt32 × Int32) :=
  cb.cc.hrttQueue.dropWhile fun pr => decide (P.clock (cb.reads + 1) - pr.1 > hrttMinWnd)

lemma mem_of_mem_recentHrtt {cb : IntcpTransCB F nameLen} {pr : UInt32 × Int32}
    (h : pr ∈ recentHrtt P cb) : pr ∈ cb.cc.hrttQueue :=
  (List.dropWhile_sublist _).subset h

/-- The time of the last of these samples, as it is read. -/
def lastSampled (P : Platform F) (cb : IntcpTransCB F nameLen) : UInt32 :=
  ((recentHrtt P cb).getLast?.map Prod.fst).getD P.emptyBack

/-- The estimate when `updateCwnd` is called for `s`. -/
def hopSrttAt (P : Platform F) (cb : IntcpTransCB F nameLen) (s : IntcpSeg) : Int32 :=
  (estimated cb.cc (getMillisec P cb) s).hopSrtt

lemma slowStart_hrttQueue (cc : CongControl F) (signal : Bool) :
    (slowStart P cc signal).hrttQueue = cc.hrttQueue := by
  rw [slowStart]
  split <;> rfl

lemma congAvoid_hrttQueue (cc : CongControl F) (current : UInt32) (signal : Bool) (least : Int32) :
    (congAvoid P cc current signal least).hrttQueue = cc.hrttQueue := by
  simp only [congAvoid]
  split
  · rfl
  · split
    · rfl
    · split <;> rfl

lemma updateCwnd_hrttQueue (cb : IntcpTransCB F nameLen) (dataLen : UInt32) :
    (updateCwnd P cb dataLen).cc.hrttQueue = sampleHrtt P cb.cc (getMillisec P cb) := by
  have hstart : ∀ (cc : CongControl F) signal,
      (if cc.ccState = .slowStart then slowStart P cc signal else cc).hrttQueue = cc.hrttQueue := by
    intro cc signal
    rw [apply_ite CongControl.hrttQueue, slowStart_hrttQueue, ite_self]
  have hlater : ∀ (cc : CongControl F) current signal least,
      (if cc.ccState = .congAvoid ∧ allow_cwnd_decrease cc current then
        congAvoid P cc current signal least else cc).hrttQueue = cc.hrttQueue := by
    intro cc current signal least
    rw [apply_ite CongControl.hrttQueue, congAvoid_hrttQueue, ite_self]
  exact (hlater _ _ _ _).trans (hstart _ _)

lemma estimated_hrttQueue (cc : CongControl F) (current : UInt32) (s : IntcpSeg) :
    (estimated cc current s).hrttQueue = cc.hrttQueue := by
  rw [estimated, updateHopRTT]
  split
  · split <;> rfl
  · rfl

lemma measureThroughput_hrttQueue (cc : CongControl F) (current len : UInt32) :
    (measureThroughput P cc current len).hrttQueue = cc.hrttQueue := by
  simp only [measureThroughput]
  split
  · rfl
  · generalize (if cc.lastThrpUpdateTs = 0 then current else cc.lastThrpUpdateTs) = since
    split <;> rfl

/-- The state when `updateCwnd` is called for a data segment. -/
def measured (P : Platform F) (cb : IntcpTransCB F nameLen) (s : IntcpSeg) :
    IntcpTransCB F nameLen :=
  sampleHop P (takeWnd (tick cb) s) (getMillisec P cb) s

lemma measured_frame (cb : IntcpTransCB F nameLen) (s : IntcpSeg) :
    (measured P cb s).reads = cb.reads + 1 ∧ (measured P cb s).nodeRole = cb.nodeRole ∧
      (measured P cb s).cc.hrttQueue = cb.cc.hrttQueue ∧
      (measured P cb s).cc.hopSrtt = hopSrttAt P cb s := by
  have hflow : (takeWnd (tick cb) s).reads = cb.reads + 1 ∧
      (takeWnd (tick cb) s).nodeRole = cb.nodeRole ∧ (takeWnd (tick cb) s).cc = cb.cc := by
    rw [takeWnd]
    split <;> exact ⟨rfl, rfl, rfl⟩
  obtain ⟨hreads, hrole, hcc⟩ := hflow
  refine ⟨hreads, hrole, ?_, ?_⟩
  · simp only [measured, sampleHop, hcc, measureThroughput_hrttQueue]
    exact estimated_hrttQueue cb.cc (getMillisec P cb) s
  · simp only [measured, sampleHop, hcc, measureThroughput_hopSrtt]
    rfl

/-- Behind `updateCwnd` a data segment measures nothing. -/
lemma handle_unmeasured (cb : IntcpTransCB F nameLen) {s : IntcpSeg} (push : s.cmd ≠ intcpCmdInt) :
    Unmeasured P (updateCwnd P (measured P cb s) s.len) (handle P cb s).2 := by
  have hmeasured : Unmeasured P (updateCwnd P (measured P cb s) s.len)
      (measureHop P (tick cb) (getMillisec P cb) s) := by
    rw [measureHop, announceRate]
    split
    · exact unmeasured_outputInt (.refl _) 0 0
    · exact .refl _
  have hdetected := unmeasured_detect (P := P) hmeasured s
  rw [handle, if_neg push]
  simp only [inputPush]
  split
  · exact unmeasured_parseData hdetected (rebuilt P s) true
  · split
    · exact hdetected
    · exact unmeasured_parseData hdetected (rebuilt P s) false

/-- What a data segment does to the queue. -/
lemma handle_push (cb : IntcpTransCB F nameLen) {s : IntcpSeg} (push : s.cmd ≠ intcpCmdInt) :
    (handle P cb s).2.nodeRole = cb.nodeRole ∧
      (handle P cb s).2.cc.hopSrtt = hopSrttAt P cb s ∧
      (handle P cb s).2.cc.hrttQueue =
        if P.clock (cb.reads + 1) > lastSampled P cb + (hopSrttAt P cb s / 2).toUInt32
        then recentHrtt P cb ++ [(P.clock (cb.reads + 1), hopSrttAt P cb s)]
        else recentHrtt P cb := by
  obtain ⟨hreads, hrole, hqueue, hestimate⟩ := measured_frame (P := P) cb s
  have hafter := handle_unmeasured (P := P) cb push
  refine ⟨hafter.role.trans hrole, ?_, ?_⟩
  · rw [hafter.hopSrtt, updateCwnd_hopSrtt, hestimate]
  · rw [hafter.hrttQueue, updateCwnd_hrttQueue]
    simp only [sampleHrtt, getMillisec, hreads, hqueue, hestimate]
    rfl

/-- The round of a segment sends the responder nothing but interests. -/
lemma handle_sent (cb : IntcpTransCB F nameLen) (s : IntcpSeg) :
    ∃ more, (handle P cb s).2.history.toResponder = cb.history.toResponder ++ more ∧
      ∀ data ∈ more, IsInterest P nameLen data := by
  by_cases push : s.cmd = intcpCmdInt
  · rw [handle, if_pos push]
    exact (unmeasured_inputInt (unmeasured_tick (.refl cb)) s).sent
  · have hflow : (takeWnd (tick cb) s).history = cb.history := by
      rw [takeWnd]
      split <;> rfl
    have hwindow : ∀ (cb : IntcpTransCB F nameLen) dataLen,
        (updateCwnd P cb dataLen).history = cb.history := fun _ _ => rfl
    have hmeasured : (measured P cb s).history = cb.history := hflow
    have hsent := (handle_unmeasured (P := P) cb push).sent
    rwa [hwindow, hmeasured] at hsent

lemma handle_interest (cb : IntcpTransCB F nameLen) {s : IntcpSeg}
    (interest : s.cmd = intcpCmdInt) :
    Unmeasured P cb (handle P cb s).2 := by
  rw [handle, if_pos interest]
  exact unmeasured_inputInt (unmeasured_tick (.refl cb)) s

/-- A round of the loop of `input`, where it goes on behind it. -/
def pushStep (P : Platform F) (s : IntcpSeg) (cb : IntcpTransCB F nameLen) :
    Option (IntcpTransCB F nameLen) :=
  if (handle P cb s).1 then some (handle P cb s).2 else none

/-- What holds of every data segment of an operation in the state in which its turn comes. -/
def AtData (P : Platform F) (Good : IntcpTransCB F nameLen → IntcpSeg → Prop)
    (cb : IntcpTransCB F nameLen) (op : Op nameLen) : Prop :=
  ∀ data, op = .input data → cb.state ≠ -1 →
    Along (pushStep P) (fun cb s => s.cmd ≠ intcpCmdInt → Good cb s) cb (decode P.raw data).2

/-- What every segment keeps, a datagram keeps. -/
lemma handleAll_keeps (Inv : IntcpTransCB F nameLen → Prop)
    {Good : IntcpTransCB F nameLen → IntcpSeg → Prop}
    (keep : ∀ cb s, Inv cb → (s.cmd ≠ intcpCmdInt → Good cb s) → Inv (handle P cb s).2)
    {segs : List IntcpSeg} (start : Inv cb)
    (good : Along (pushStep P) (fun cb s => s.cmd ≠ intcpCmdInt → Good cb s) cb segs) :
    Inv (handleAll P cb segs).2 := by
  induction segs generalizing cb with
  | nil => exact start
  | cons s rest ih =>
    have hnow := keep cb s start good.1
    rw [handleAll]
    cases hflag : (handle P cb s).1 with
    | true => exact ih hnow (good.2 _ (if_pos hflag))
    | false => simpa [hflag] using hnow

/-- An invariant of the control state that the data segments of a run keep, the run keeps. -/
lemma step_keeps (Inv : IntcpTransCB F nameLen → Prop)
    {Good : IntcpTransCB F nameLen → IntcpSeg → Prop}
    (quiet : ∀ cb cb', Inv cb → Unmeasured P cb cb' → Inv cb')
    (keep : ∀ cb s, Inv cb → (s.cmd ≠ intcpCmdInt → Good cb s) → Inv (handle P cb s).2)
    {op : Op nameLen} (start : Inv cb) (good : AtData P Good cb op)
    (step : op.step P cb = some cb') : Inv cb' := by
  by_cases hinput : ∃ data, op = .input data
  · obtain ⟨data, rfl⟩ := hinput
    rw [Op.step] at step
    by_cases hdead : cb.state = -1
    · rw [if_pos hdead] at step
      cases step
      exact start
    · rw [if_neg hdead] at step
      cases step
      obtain ⟨n, hfold⟩ := input_handleAll (P := P) cb data
      have hhandled := handleAll_keeps Inv keep start (good data rfl hdead)
      rw [hfold]
      exact quiet _ _ hhandled ((Unmeasured.refl _).same rfl rfl rfl)
  · exact quiet _ _ start (step_unmeasured (fun data h => hinput ⟨data, h⟩) step)

/-- `updateCwnd` finds a sample to read the time of. -/
def FindsSample (P : Platform F) (cb : IntcpTransCB F nameLen) (_ : IntcpSeg) : Prop :=
  recentHrtt P cb ≠ []

/-- After an idle time it finds one exactly if one is not older than `HrttMinWnd`. -/
lemma findsSample_iff (cb : IntcpTransCB F nameLen) (s : IntcpSeg) : FindsSample P cb s ↔
    ∃ pr ∈ cb.cc.hrttQueue, P.clock (cb.reads + 1) - pr.1 ≤ hrttMinWnd := by
  rw [FindsSample, recentHrtt, ne_eq, List.dropWhile_eq_nil_iff]
  simp

lemma not_findsSample (empty : cb.cc.hrttQueue = []) (s : IntcpSeg) : ¬ FindsSample P cb s := by
  simp [findsSample_iff, empty]

/-- Over a datagram that comes while the queue is empty. -/
lemma along_findsSample_iff (empty : cb.cc.hrttQueue = []) (segs : List IntcpSeg) :
    Along (pushStep P) (fun cb s => s.cmd ≠ intcpCmdInt → FindsSample P cb s) cb segs ↔
      Along (pushStep P) (fun _ s => s.cmd ≠ intcpCmdInt → False) cb segs := by
  refine along_congr (fun cb : IntcpTransCB F nameLen => cb.cc.hrttQueue = []) ?_ ?_ empty
    fun _ _ => trivial
  · intro cb s hempty _
    have hnone := not_findsSample (P := P) hempty s
    exact forall_congr' fun _ => iff_false_intro hnone
  · intro cb cb' s hempty _ finds step
    rw [pushStep] at step
    split at step
    · cases step
      have hinterest : s.cmd = intcpCmdInt := by
        by_contra hpush
        exact not_findsSample hempty s (finds hpush)
      rw [(handle_interest (P := P) cb hinterest).hrttQueue, hempty]
    · cases step

/-- The queue is never read while it is empty in exactly the runs without a data segment: the
first one always finds it empty. A later one does unless a sample is left in the window. -/
theorem run_findsSample_iff (P : Platform F) (role : Role) (nameChars : Vector UInt8 nameLen)
    (cache : Cache nameLen) (ops : List (Op nameLen)) :
    (Along (Op.step P) (AtData P (FindsSample P)) (.create P role nameChars cache) ops ↔
      Along (Op.step P) (AtData P fun _ _ => False) (.create P role nameChars cache) ops) ∧
    ∀ (cb : IntcpTransCB F nameLen) s, FindsSample P cb s ↔
      ∃ pr ∈ cb.cc.hrttQueue, P.clock (cb.reads + 1) - pr.1 ≤ hrttMinWnd := by
  refine ⟨?_, findsSample_iff⟩
  have anything : ∀ op ∈ ops, (fun _ : Op nameLen => True) op := fun _ _ => trivial
  refine along_congr (fun cb : IntcpTransCB F nameLen => cb.cc.hrttQueue = []) ?_ ?_ rfl anything
  · intro cb op hempty _
    exact forall_congr' fun data => forall_congr' fun _ => forall_congr' fun _ =>
      along_findsSample_iff hempty _
  · intro cb cb' op hempty _ finds step
    refine step_keeps (fun cb : IntcpTransCB F nameLen => cb.cc.hrttQueue = []) ?_ ?_ hempty finds
      step
    · exact fun cb cb' h unmeasured => unmeasured.hrttQueue.trans h
    · intro cb s h good
      have hinterest : s.cmd = intcpCmdInt := by
        by_contra hpush
        exact not_findsSample h s (good hpush)
      rw [(handle_interest (P := P) cb hinterest).hrttQueue, h]

/-- The first data segment of a session reads the last of no samples. -/
theorem first_segment_finds_nothing :
    ¬ Along (Op.step freeClock) (AtData freeClock (FindsSample freeClock))
      (.create freeClock .midnode #v[110] (Cache.fresh fun _ _ => 0))
      [.input (frame (pushSeg freeClock 0 100 0 [] length_header))] := by
  rintro ⟨atData, _⟩
  have hpushes := atData _ rfl (by decide)
  have hdecoded : (decode freeClock.raw (frame (pushSeg freeClock 0 100 0 [] length_header))).2 =
      [pushSeg freeClock 0 100 0 [] length_header] := by decide +kernel
  rw [hdecoded] at hpushes
  exact not_findsSample rfl _ (hpushes.1 (by decide))

end HrttHistory
