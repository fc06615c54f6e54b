import Intcp.ByteAccounts
import Intcp.HoleInvariants
import Intcp.LastWrite

/-!
# The holes of a node over its calls

Where data segments have proper ranges, the list of holes of a node is well cut
after every call and the cursor never moves back.
-/

namespace HoleRuns

open FuelledLoop StepRuns Words BlockCache TransControl SegmentCodec DataPlane HoleTracking
  InterestPlane NodeCore CallRules LastWrite HoleInvariants ByteAccounts

universe u
variable {F : Type u} {nameLen : Nat} {P : Platform F}

/-- What a data segment has for a range. -/
def CleanSeg (s : IntcpSeg) : Prop := s.cmd ≠ intcpCmdInt → Proper s.rangeStart s.rangeEnd

instance (s : IntcpSeg) : Decidable (CleanSeg s) := inferInstanceAs (Decidable (_ → _))

/-- The ranges that a call brings in are in range, and those of data are proper. -/
def CleanCall (P : Platform F) (op : Op nameLen) : Prop :=
  BoundedCall P op ∧ match op with
    | .input data => ∀ s ∈ (decode P.raw data).2, CleanSeg s
    | _ => True

instance (P : Platform F) (op : Op nameLen) : Decidable (CleanCall P op) := by
  cases op <;> exact inferInstanceAs (Decidable (_ ∧ _))

/-- The state of the holes behind a cursor that has come past `low`. -/
structure Tidy (low : UInt32) (cb : IntcpTransCB F nameLen) : Prop where
  accounts : Accounts cb
  wellCut : WellCut cb.dataNextRangeStart cb.dataHoles
  past : low ≤ cb.dataNextRangeStart
  top : cb.dataNextRangeStart.toNat ≤ 2 ^ 32 - 4096

variable {low : UInt32} {cb cb' : IntcpTransCB F nameLen}

lemma Tidy.same (h : Tidy low cb) (accounts : Accounts cb') (same : SameHoles cb cb') :
    Tidy low cb' := by
  obtain ⟨hholes, hcursor⟩ := same
  refine ⟨accounts, ?_, ?_, ?_⟩
  · rw [hholes, hcursor]
    exact h.wellCut
  · rw [hcursor]
    exact h.past
  · rw [hcursor]
    exact h.top

lemma Tidy.tick (h : Tidy low cb) : Tidy low (tick cb) := h.same (accounts_tick h.accounts) ⟨rfl, rfl⟩

lemma Tidy.outputInt (h : Tidy low cb) (s e : UInt32) : Tidy low (outputInt P cb s e) :=
  h.same (accounts_outputInt h.accounts s e) (outputInt_sameHoles ⟨rfl, rfl⟩ s e)

lemma Tidy.request (h : Tidy low cb) (s : UInt32) {e : UInt32} (bound : InRange e) :
    Tidy low (request P cb s e).2 :=
  h.same (accounts_request h.accounts s bound) (request_sameHoles ⟨rfl, rfl⟩ s e)

lemma Tidy.parseInt (h : Tidy low cb) (s : UInt32) {e : UInt32} (bound : InRange e) :
    Tidy low (parseInt P cb s e) :=
  h.same (accounts_parseInt h.accounts s bound) (parseInt_sameHoles ⟨rfl, rfl⟩ s e)

lemma Tidy.inputInt (h : Tidy low cb) {s : IntcpSeg} (bound : InRange s.rangeEnd) :
    Tidy low (inputInt P cb s) := by
  have hset : ∀ owd rate, Tidy low { TransControl.tick cb with intHopOwd := owd, rmtSendRate := rate } := by
    intro owd rate
    have acc := h.accounts
    exact h.same ⟨acc.snd, acc.ints, acc.queue, acc.buf, acc.holes⟩ ⟨rfl, rfl⟩
  simp only [NodeCore.inputInt]
  split
  · exact hset _ _
  · exact (hset _ _).parseInt _ bound

/-- The cursor follows the segment, or stays where the segment is behind it. -/
lemma Tidy.detected (h : Tidy low cb) {s : IntcpSeg} (proper : Proper s.rangeStart s.rangeEnd)
    (accounts : Accounts cb')
    (same : SameHoles (detectDataHole P cb s.rangeStart s.rangeEnd).2 cb') : Tidy low cb' := by
  obtain ⟨hholes, hnext⟩ := same
  have hbefore := UInt32.le_of_lt proper.1
  rcases detectDataHole_cases (P := P) cb s.rangeStart s.rangeEnd with
    ⟨hat, hsame, hcursor⟩ | ⟨hbehind, hcut, hcursor⟩ | ⟨hahead, _, hsame, hcursor⟩ |
    ⟨hahead, hnormal, hnew, hcursor⟩
  · have hle : cb.dataNextRangeStart ≤ s.rangeEnd := hat ▸ hbefore
    refine ⟨accounts, ?_, ?_, ?_⟩
    · rw [hholes, hnext, hcursor, hsame]
      exact h.wellCut.weaken hle
    · rw [hnext, hcursor]
      exact UInt32.le_trans h.past hle
    · rw [hnext, hcursor]
      exact proper.2
  · refine ⟨accounts, ?_, ?_, ?_⟩
    · rw [hholes, hnext, hcursor, hcut]
      exact h.wellCut.cut proper.1
    · rw [hnext, hcursor]
      exact h.past
    · rw [hnext, hcursor]
      exact h.top
  · have hle : cb.dataNextRangeStart ≤ s.rangeEnd := UInt32.le_trans (UInt32.le_of_lt hahead) hbefore
    refine ⟨accounts, ?_, ?_, ?_⟩
    · rw [hholes, hnext, hcursor, hsame]
      exact h.wellCut.weaken hle
    · rw [hnext, hcursor]
      exact UInt32.le_trans h.past hle
    · rw [hnext, hcursor]
      exact proper.2
  · refine ⟨accounts, ?_, ?_, ?_⟩
    · rw [hholes, hnext, hcursor, hnew]
      exact (h.wellCut.append hahead hnormal _).weaken hbefore
    · rw [hnext, hcursor]
      exact UInt32.le_trans h.past (UInt32.le_trans (UInt32.le_of_lt hahead) hbefore)
    · rw [hnext, hcursor]
      exact proper.2

lemma measureHop_sameHoles (cb : IntcpTransCB F nameLen) (current : UInt32) (s : IntcpSeg) :
    SameHoles cb (measureHop P cb current s) := by
  refine measureHop_rule (SameHoles cb) ?_ ?_ ?_ ⟨rfl, rfl⟩ current s
  · exact fun _ h => h
  · exact fun _ _ _ h => h
  · exact fun _ h _ => outputInt_sameHoles h 0 0

lemma parseData_sameHoles (cb : IntcpTransCB F nameLen) (seg : IntcpSeg) (header : Bool) :
    SameHoles cb (parseData cb seg header) := by
  have hsent : SameHoles cb (if cb.nodeRole ≠ .requester then enqueue cb seg else cb) := by
    split
    · exact ⟨rfl, rfl⟩
    · exact ⟨rfl, rfl⟩
  simp only [parseData]
  cases header with
  | true => exact hsent
  | false => exact hsent

/-- Of a data segment the holes see what `detectDataHole` does. -/
lemma inputPush_sameHoles (cb : IntcpTransCB F nameLen) (current : UInt32) (s : IntcpSeg) :
    SameHoles (detectDataHole P (measureHop P cb current s) s.rangeStart s.rangeEnd).2
      (inputPush P cb current s).2 := by
  simp only [inputPush]
  split
  · exact parseData_sameHoles _ _ true
  · split
    · exact ⟨rfl, rfl⟩
    · exact parseData_sameHoles _ _ false

lemma Tidy.inputPush (h : Tidy low cb) (current : UInt32) {s : IntcpSeg} (bound : InRange s.rangeStart)
    (proper : Proper s.rangeStart s.rangeEnd) : Tidy low (inputPush P cb current s).2 := by
  have hmeasured : Tidy low (measureHop P cb current s) := by
    refine measureHop_rule (Tidy low) ?_ ?_ ?_ h current s
    · intro cb h
      exact h.tick
    · intro cb cc rest h
      have acc := h.accounts
      exact h.same ⟨acc.snd, acc.ints, acc.queue, acc.buf, acc.holes⟩ ⟨rfl, rfl⟩
    · intro cb h _
      exact h.outputInt 0 0
  exact hmeasured.detected proper (accounts_inputPush h.accounts current bound)
    (inputPush_sameHoles cb current s)

lemma Tidy.input (h : Tidy low cb) {data : List UInt8}
    (bounded : ∀ s ∈ (decode P.raw data).2, InRange s.rangeStart ∧ InRange s.rangeEnd)
    (clean : ∀ s ∈ (decode P.raw data).2, CleanSeg s) : Tidy low (input P cb data).2 := by
  refine input_rule (Tidy low) (fun s => s ∈ (decode P.raw data).2) ?_ ?_ ?_ data (fun _ hs => hs) h
  · intro cb h
    exact h.tick
  · intro cb s h hs _
    exact h.inputInt (bounded s hs).2
  · intro cb current s h hs hcmd
    exact h.inputPush current (bounded s hs).1 (clean s hs (hcmd ▸ by decide))

lemma Tidy.flushIntQueue (h : Tidy low cb) (hqueue : flushIntQueue P cb = some cb') :
    Tidy low cb' := by
  refine loop_invariant (Tidy low) (Tidy low) ?_ ?_ h hqueue
  · intro s t hs hb
    have acc := accounts_queuePass hs.accounts hb
    rw [queuePass] at hb
    split at hb
    · cases hb
    · cases hb
      exact hs.same acc ⟨rfl, rfl⟩
  · intro s r hs hb
    rw [queuePass] at hb
    split at hb <;> cases hb
    exact hs

/-- The interests of `intBuf` cut proper ranges out of the holes. -/
lemma flushInts_wellCut {fl : IntFlush F nameLen} {segs : List IntcpSeg} {cursor : UInt32}
    (proper : ∀ seg ∈ segs, seg.rangeStart < seg.rangeEnd) (wellCut : WellCut cursor fl.cb.dataHoles)
    (same : fl.cb.dataNextRangeStart = cursor) :
    WellCut cursor (flushInts P fl segs).cb.dataHoles ∧
      (flushInts P fl segs).cb.dataNextRangeStart = cursor := by
  have hcharged : ∀ (cb : IntcpTransCB F nameLen) size, SameHoles cb (chargeLimit cb size) := by
    intro cb size
    rw [chargeLimit]
    split
    · exact ⟨rfl, rfl⟩
    · exact ⟨rfl, rfl⟩
  have hsent : ∀ (cb : IntcpTransCB F nameLen) (seg : IntcpSeg), seg.rangeStart < seg.rangeEnd →
      WellCut cursor cb.dataHoles ∧ cb.dataNextRangeStart = cursor →
      WellCut cursor (sendInt P cb seg).dataHoles ∧
        (sendInt P cb seg).dataNextRangeStart = cursor := by
    intro cb seg hproper hcb
    rw [sendInt, outputInt_eq]
    exact ⟨hcb.1.cut hproper, hcb.2⟩
  refine (flushInts_rule (fun fl rest => (∀ seg ∈ rest, seg.rangeStart < seg.rangeEnd) ∧
    WellCut cursor fl.cb.dataHoles ∧ fl.cb.dataNextRangeStart = cursor) ?_ ?_ ?_ ?_ ?_
    ⟨proper, wellCut, same⟩).2
  · intro fl seg rest h
    exact ⟨(List.forall_mem_cons.mp h.1).2, h.2⟩
  · intro fl seg rest h _
    exact ⟨by simp, h.2⟩
  · intro fl seg rest size h _
    refine ⟨by simp, ?_⟩
    rw [(hcharged _ _).1, (hcharged _ _).2]
    exact h.2
  · intro fl seg rest n h _
    exact ⟨(List.forall_mem_cons.mp h.1).2, hsent _ seg (h.1 seg List.mem_cons_self) h.2⟩
  · intro fl seg rest n size ts h _
    refine ⟨(List.forall_mem_cons.mp h.1).2, hsent _ seg (h.1 seg List.mem_cons_self) ?_⟩
    rw [(hcharged _ _).1, (hcharged _ _).2]
    exact h.2

lemma Tidy.sendInts (h : Tidy low cb) (newOutput : Int32) : Tidy low (sendInts P cb newOutput) := by
  have acc := accounts_sendInts (P := P) h.accounts newOutput
  have hsent : WellCut cb.dataNextRangeStart
        (flushInts P ⟨cb, [], 0, false⟩ cb.intBuf).cb.dataHoles ∧
      (flushInts P ⟨cb, [], 0, false⟩ cb.intBuf).cb.dataNextRangeStart = cb.dataNextRangeStart :=
    flushInts_wellCut h.accounts.buf h.wellCut rfl
  obtain ⟨hholes, hcursor⟩ : (InterestPlane.sendInts P cb newOutput).dataHoles =
        (flushInts P ⟨cb, [], 0, false⟩ cb.intBuf).cb.dataHoles ∧
      (InterestPlane.sendInts P cb newOutput).dataNextRangeStart = cb.dataNextRangeStart := by
    rw [← hsent.2]
    simp only [InterestPlane.sendInts]
    split
    · exact ⟨rfl, rfl⟩
    · exact ⟨rfl, rfl⟩
  refine ⟨acc, ?_, ?_, ?_⟩
  · rw [hholes, hcursor]
    exact hsent.1
  · rw [hcursor]
    exact h.past
  · rw [hcursor]
    exact h.top

lemma Tidy.flushIntBuf (h : Tidy low cb) : Tidy low (flushIntBuf P cb) := by
  have acc := h.accounts
  rw [InterestPlane.flushIntBuf]
  split
  · exact h
  · apply Tidy.sendInts
    exact h.same ⟨acc.snd, acc.ints, acc.queue, acc.buf, acc.holes⟩ ⟨rfl, rfl⟩

lemma Tidy.flushDataHoles (h : Tidy low cb) : Tidy low (flushDataHoles P cb) := by
  obtain ⟨hholes, hcursor⟩ := flushDataHoles_holes (P := P) cb
  refine ⟨accounts_flushDataHoles h.accounts, ?_, ?_, ?_⟩
  · rw [hcursor]
    exact h.wellCut.sublist hholes
  · rw [hcursor]
    exact h.past
  · rw [hcursor]
    exact h.top

lemma Tidy.flush (h : Tidy low cb) (hflush : flush P cb = some cb') : Tidy low cb' := by
  refine flush_rule (Tidy low) ?_ ?_ ?_ ?_ ?_ ?_ h hflush
  · intro cb h
    exact h.tick
  · intro cb cb' h _ hqueue
    exact h.flushIntQueue hqueue
  · intro cb h
    exact h.flushIntBuf
  · intro cb h _
    exact h.flushDataHoles
  · intro cb h _
    obtain ⟨limit, n, sn, bytes, queue, out, hdata⟩ := flushData_frame (P := P) cb
    have acc := accounts_flushData (P := P) h.accounts
    rw [hdata] at acc ⊢
    exact h.same acc ⟨rfl, rfl⟩
  · intro cb ts h
    have acc := h.accounts
    exact h.same ⟨acc.snd, acc.ints, acc.queue, acc.buf, acc.holes⟩ ⟨rfl, rfl⟩

lemma Tidy.update (h : Tidy low cb) (hupdate : update P cb = some cb') : Tidy low cb' := by
  refine update_rule (Tidy low) ?_ ?_ ?_ ?_ h hupdate
  · intro cb h
    exact h.tick
  · intro cb now h
    have acc := h.accounts
    exact h.same ⟨acc.snd, acc.ints, acc.queue, acc.buf, acc.holes⟩ ⟨rfl, rfl⟩
  · intro cb updated next h
    have acc := h.accounts
    exact h.same ⟨acc.snd, acc.ints, acc.queue, acc.buf, acc.holes⟩ ⟨rfl, rfl⟩
  · intro cb cb' h hflush
    exact h.flush hflush

lemma notifyNewData_sameHoles (cb : IntcpTransCB F nameLen) (buffer : Buffer) (s e : UInt32) :
    SameHoles cb (notifyNewData P cb buffer s e) := by
  have hreleased : SameHoles cb (releaseInts P buffer s e cb cb.pendingInts).1 :=
    releaseInts_rule (SameHoles cb) (fun _ _ _ _ h => h) buffer s e ⟨rfl, rfl⟩ cb.pendingInts
  exact hreleased

lemma recv_sameHoles (cb : IntcpTransCB F nameLen) (maxBufSize : Int32) :
    SameHoles cb (recv cb maxBufSize).2 := by
  rw [recv]
  split
  · exact ⟨rfl, rfl⟩
  · split
    · split
      · exact ⟨rfl, rfl⟩
      · split
        · exact ⟨rfl, rfl⟩
        · exact ⟨rfl, rfl⟩
    · exact ⟨rfl, rfl⟩

/-- The step lemma: every clean call keeps the holes tidy. -/
theorem step_tidy {op : Op nameLen} (clean : CleanCall P op) (h : Tidy low cb)
    (hstep : op.step P cb = some cb') : Tidy low cb' := by
  have acc := step_accounts clean.1 h.accounts hstep
  rw [Op.step] at hstep
  split at hstep
  · cases hstep
    exact h
  · cases op with
    | input data =>
      cases hstep
      exact h.input clean.1 clean.2
    | request s e =>
      cases hstep
      exact h.request s clean.1
    | parseInt s e =>
      cases hstep
      exact h.parseInt s clean.1
    | notifyNewData buffer s e =>
      cases hstep
      exact h.same acc (notifyNewData_sameHoles cb buffer s e)
    | insertData buffer s e =>
      obtain ⟨cache, _, rfl⟩ := Option.map_eq_some_iff.mp hstep
      exact h.same acc (notifyNewData_sameHoles { cb with cache := cache } buffer s e)
    | sendData buffer s e =>
      cases hstep
      refine h.same acc ?_
      rw [sendData_eq]
      exact ⟨rfl, rfl⟩
    | sendDataHeader s e =>
      cases hstep
      exact h.same acc ⟨rfl, rfl⟩
    | parseData seg header =>
      cases hstep
      exact h.same acc (parseData_sameHoles cb seg header)
    | recv maxBufSize =>
      cases hstep
      exact h.same acc (recv_sameHoles cb maxBufSize)
    | flush => exact h.flush hstep
    | update => exact h.update hstep
    | cacheInsert name s e dataBuf =>
      obtain ⟨cache, _, rfl⟩ := Option.map_eq_some_iff.mp hstep
      exact h.same acc ⟨rfl, rfl⟩
    | cacheRead name s e =>
      cases hstep
      exact h.same acc ⟨rfl, rfl⟩

lemma tidy_create (role : Role) (nameChars : Vector UInt8 nameLen) (cache : Cache nameLen) :
    Tidy 0 (IntcpTransCB.create P role nameChars cache) :=
  ⟨accounts_create role nameChars cache, wellCut_nil _, UInt32.le_refl _, Nat.zero_le _⟩

/-- The run lemma; `low` may be any cursor that was passed before. -/
theorem run_tidy {start : IntcpTransCB F nameLen} (initially : Tidy low start)
    {ops : List (Op nameLen)} (clean : ∀ op ∈ ops, CleanCall P op)
    (hrun : run (Op.step P) start ops = some cb) : Tidy low cb :=
  run_invariant_all (Tidy low) (fun _ _ _ h hclean hstep => step_tidy hclean h hstep) initially
    clean hrun

/-- Counted from here on. -/
lemma Tidy.again (h : Tidy low cb) : Tidy cb.dataNextRangeStart cb :=
  ⟨h.accounts, h.wellCut, UInt32.le_refl _, h.top⟩

end HoleRuns
