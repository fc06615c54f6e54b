import Intcp.NodeMoves
import Intcp.ByteAccounts
import Mathlib.Tactic.Ring

/-!
# The output limit of `flushData`

The token bucket: every flush adds what the rate has earned since the last one,
and sends as long as the limit covers the next segment. The limit is signed and
compared with an unsigned length, and the rate is taken from a signed field of
the wire, so a negative rate makes a limit that covers everything.
-/

namespace OutputLimit

open StepRuns Words BlockCache TransControl SegmentCodec RateControl DataPlane InterestPlane NodeCore
  CallRules NodeMoves ByteAccounts

universe u
variable {F : Type u} {nameLen : Nat} {P : Platform F}

/-- The credit of a flush in state `cb`. -/
def newOutput (P : Platform F) (cb : IntcpTransCB F nameLen) : Int32 :=
  mbitToBytes P (fdiv P (fmul P cb.rmtSendRate
    (fofInt P (flushIntv cb (getMillisec P cb)).toNat)) (fofInt P 1000))

/-- `flushData` takes no more from the queue than the limit and the credit cover, and
leaves no negative limit. -/
def KeepsLimit (P : Platform F) (cb : IntcpTransCB F nameLen) : Prop :=
  (∃ gone, cb.sndQueue = gone ++ (flushData P cb).sndQueue ∧
    (sndTotal gone : Int) ≤ max 0 (cb.dataOutputLimit.toInt + (newOutput P cb).toInt)) ∧
  0 ≤ (flushData P cb).dataOutputLimit.toInt

lemma sndTotal_cons (seg : IntcpSeg) (segs : List IntcpSeg) :
    sndTotal (seg :: segs) = 23 + seg.len.toNat + sndTotal segs := by
  simp [sndTotal]

/-- What the loop takes from the queue is taken from the limit, read as unsigned. -/
structure Charged (limit : UInt32) (segs gone : List IntcpSeg) (flushed : Bool × Flushing F nameLen) :
    Prop where
  split : segs = gone ++ flushed.2.cb.sndQueue
  spent : sndTotal gone + flushed.2.cb.dataOutputLimit.toUInt32.toNat = limit.toNat
  reached : flushed.1 = true ↔ limit.toNat < sndTotal segs
  drained : flushed.1 = false → sndTotal gone = sndTotal segs
  stopped : flushed.1 = true → flushed.2.cb.dataOutputLimit.toUInt32.toNat < 2 ^ 31

lemma flushSeg_limit (fl : Flushing F nameLen) (seg : IntcpSeg) :
    (flushSeg P fl seg).cb.dataOutputLimit.toUInt32 =
        fl.cb.dataOutputLimit.toUInt32 - (intcpOverhead + seg.len) ∧
      (flushSeg P fl seg).cb.sndQueue = fl.cb.sndQueue.tail := by
  simp only [flushSeg, makeRoom, output_requester]
  split <;> exact ⟨rfl, rfl⟩

lemma flushSegs_charged {segs : List IntcpSeg} (sized : ∀ seg ∈ segs, Sized seg)
    (fl : Flushing F nameLen) (queue : fl.cb.sndQueue = segs) :
    ∃ gone, Charged fl.cb.dataOutputLimit.toUInt32 segs gone (flushSegs P fl segs) := by
  induction segs generalizing fl with
  | nil =>
    exact ⟨[], queue.symm, Nat.zero_add _, by simp [flushSegs, sndTotal], fun _ => rfl,
      fun h => absurd h Bool.false_ne_true⟩
  | cons seg rest ih =>
    obtain ⟨hseg, hrest⟩ := List.forall_mem_cons.mp sized
    have hoverhead : intcpOverhead.toNat = 23 := rfl
    rw [Sized] at hseg
    have hsize : (intcpOverhead + seg.len).toNat = 23 + seg.len.toNat := by
      rw [toNat_add_small] <;> omega
    rw [flushSegs, UInt32.add_comm seg.len]
    by_cases hcovered : fl.cb.dataOutputLimit.toUInt32 < intcpOverhead + seg.len
    · rw [if_pos hcovered]
      rw [UInt32.lt_iff_toNat_lt, hsize] at hcovered
      refine ⟨[], queue.symm, Nat.zero_add _, ?_, fun h => absurd h.symm Bool.false_ne_true, ?_⟩
      · rw [sndTotal_cons]
        exact ⟨fun _ => by omega, fun _ => rfl⟩
      · exact fun _ => Nat.lt_trans hcovered hseg
    · obtain ⟨hlimit, htail⟩ := flushSeg_limit (P := P) fl seg
      have hleft := toNat_sub_of_le (UInt32.not_lt.mp hcovered)
      have hle := UInt32.le_iff_toNat_le.mp (UInt32.not_lt.mp hcovered)
      rw [hsize] at hleft hle
      have hqueue : (flushSeg P fl seg).cb.sndQueue = rest := by rw [htail, queue, List.tail_cons]
      obtain ⟨gone, later⟩ := ih hrest _ hqueue
      have hspent := later.spent
      have hreached := later.reached
      rw [hlimit, hleft] at hspent hreached
      rw [if_neg hcovered]
      refine ⟨seg :: gone, congrArg _ later.split, ?_, ?_, ?_, later.stopped⟩
      · rw [sndTotal_cons]
        omega
      · rw [hreached, sndTotal_cons]
        omega
      · intro hall
        rw [sndTotal_cons, sndTotal_cons, later.drained hall]

/-- The state of `flushData` before its loop. -/
def credited (P : Platform F) (cb : IntcpTransCB F nameLen) : IntcpTransCB F nameLen :=
  { tick cb with dataOutputLimit := cb.dataOutputLimit + newOutput P cb }

lemma flushData_limit (cb : IntcpTransCB F nameLen) :
    let flushed := flushSegs P ⟨credited P cb, []⟩ cb.sndQueue
    (flushData P cb).sndQueue = flushed.2.cb.sndQueue ∧
      (flushData P cb).dataOutputLimit =
        if flushed.1 = false ∧ newOutput P cb < flushed.2.cb.dataOutputLimit then newOutput P cb
        else flushed.2.cb.dataOutputLimit := by
  simp only [flushData, output_requester, settleLimit]
  exact ⟨rfl, rfl⟩

/-- A flush is covered by the credit `newOutput`: nothing negative is earned and `int` can
hold what the queue leaves of the limit, or the limit covers the negative credit and the
queue uses up the rest. -/
def CoveredBy (newOutput : Int) (cb : IntcpTransCB F nameLen) : Prop :=
  if 0 ≤ newOutput then cb.dataOutputLimit.toInt + newOutput < 2 ^ 31 + sndTotal cb.sndQueue
  else 0 ≤ cb.dataOutputLimit.toInt + newOutput ∧
    cb.dataOutputLimit.toInt + newOutput < sndTotal cb.sndQueue

instance (newOutput : Int) (cb : IntcpTransCB F nameLen) : Decidable (CoveredBy newOutput cb) :=
  inferInstanceAs (Decidable (if 0 ≤ newOutput then (_ : Int) < _ else (0 : Int) ≤ _ ∧ (_ : Int) < _))

/-- The loop compares with the signed sum if that is not negative, also where it has
overflown, and else with a huge number. -/
lemma toNat_credited {limit : Int32} (h : 0 ≤ limit.toInt) (newOutput : Int32) :
    ((limit + newOutput).toUInt32.toNat : Int) =
      if 0 ≤ limit.toInt + newOutput.toInt then limit.toInt + newOutput.toInt
      else limit.toInt + newOutput.toInt + 2 ^ 32 := by
  have hsum := toNat_toUInt32 (limit + newOutput)
  have hlow := newOutput.le_toInt
  have hhigh := newOutput.toInt_lt
  have hlimit := limit.toInt_lt
  rw [Int32.toInt_add, Int.bmod_def] at hsum
  split at hsum <;> split at hsum <;> split <;> omega

/-- What of `KeepsLimit` is arithmetic: `sent` bytes left the queue, `left` is what the loop
left of the limit, and `full` says whether the limit was reached. -/
lemma keepsLimit_numbers {cb : IntcpTransCB F nameLen} (sized : ∀ seg ∈ cb.sndQueue, Sized seg) :
    ∃ (sent : Nat) (left : Int32) (full : Bool),
      sent + left.toUInt32.toNat = (cb.dataOutputLimit + newOutput P cb).toUInt32.toNat ∧
      (full = true ↔
        (cb.dataOutputLimit + newOutput P cb).toUInt32.toNat < sndTotal cb.sndQueue) ∧
      (full = false → sent = sndTotal cb.sndQueue) ∧
      (full = true → left.toUInt32.toNat < 2 ^ 31) ∧
      (KeepsLimit P cb ↔
        (sent : Int) ≤ max 0 (cb.dataOutputLimit.toInt + (newOutput P cb).toInt) ∧
        0 ≤ (if full = false ∧ newOutput P cb < left then newOutput P cb else left).toInt) := by
  obtain ⟨gone, charged⟩ := flushSegs_charged (P := P) sized ⟨credited P cb, []⟩ rfl
  obtain ⟨hqueue, hlimit⟩ := flushData_limit (P := P) cb
  refine ⟨sndTotal gone, _, _, charged.spent, charged.reached, charged.drained, charged.stopped, ?_⟩
  rw [KeepsLimit, hqueue, hlimit]
  refine and_congr_left fun _ => ?_
  constructor
  · rintro ⟨gone', hsplit, hbound⟩
    rwa [List.append_cancel_right (charged.split.symm.trans hsplit)]
  · intro hbound
    exact ⟨gone, charged.split, hbound⟩

theorem keepsLimit_iff {cb : IntcpTransCB F nameLen} (limit : 0 ≤ cb.dataOutputLimit.toInt)
    (sized : ∀ seg ∈ cb.sndQueue, Sized seg) :
    KeepsLimit P cb ↔ CoveredBy (newOutput P cb).toInt cb := by
  have hbefore := toNat_credited limit (newOutput P cb)
  have hcredit := (newOutput P cb).le_toInt
  have hcreditRoom := (newOutput P cb).toInt_lt
  have hroom := cb.dataOutputLimit.toInt_lt
  obtain ⟨sent, left, full, hspent, hreached, hdrained, hstopped, hkeeps⟩ :=
    keepsLimit_numbers (P := P) sized
  have hafter := toNat_toUInt32 left
  have hleft := left.le_toInt
  have hleftRoom := left.toInt_lt
  rw [hkeeps, CoveredBy]
  clear hkeeps
  cases full with
  | true =>
    -- what is left does not cover the next segment
    have hshort := hreached.mp rfl
    have hless := hstopped rfl
    have hpos : 0 ≤ left.toInt := by
      split at hafter <;> omega
    simp only [Bool.true_eq_false, false_and, if_false]
    split at hbefore <;> split <;> omega
  | false =>
    -- everything went, and the limit falls to the credit
    have hshort : ¬ _ := fun h => Bool.false_ne_true (hreached.mpr h)
    have hall := hdrained rfl
    simp only [true_and, Int32.lt_iff_toInt_lt]
    split <;> split at hbefore <;> split at hafter <;> split <;> omega

/-- Rates are exact rationals; only a conversion to `int` need not be exact. -/
structure ExactRates (P : Platform Rat) : Prop where
  ofInt : ∀ n : Int, P.ofInt n = n
  mul : ∀ a b, P.mul a b = a * b
  div : ∀ a b, P.div a b = a / b
  single : ∀ a, P.single a = a

lemma exact_exactRates (clock : Nat → UInt32) : ExactRates (Platform.exact clock) :=
  ⟨fun _ => rfl, fun _ _ => rfl, fun _ _ => rfl, fun _ => rfl⟩

/-- The bytes that the rate has earned since the last flush, at 125 bytes a millisecond
for one Mbit/s. -/
def earned (P : Platform Rat) (cb : IntcpTransCB Rat nameLen) : Rat :=
  cb.rmtSendRate * (flushIntv cb (getMillisec P cb)).toNat * 125

/-- What has been earned covers the flush, as far as the conversion to `int` lets it. -/
def Covered (P : Platform Rat) (cb : IntcpTransCB Rat nameLen) : Prop :=
  CoveredBy (P.toInt (earned P cb)).toInt cb

instance (P : Platform Rat) (cb : IntcpTransCB Rat nameLen) : Decidable (Covered P cb) :=
  inferInstanceAs (Decidable (CoveredBy _ _))

lemma newOutput_exact {P : Platform Rat} (exact : ExactRates P) (cb : IntcpTransCB Rat nameLen) :
    newOutput P cb = P.toInt (earned P cb) := by
  have hbytes : cb.rmtSendRate * (flushIntv cb (getMillisec P cb)).toNat / 1000 * 125000 =
      earned P cb := by
    rw [earned]
    ring
  simp only [newOutput, mbitToBytes, fmul, fdiv, fofInt, exact.single, exact.ofInt, exact.mul,
    exact.div]
  push_cast
  rw [hbytes]

/-- What holds of the state in which an operation comes to `flushData`. -/
def AtFlush (P : Platform F) (Good : IntcpTransCB F nameLen → Prop) (cb : IntcpTransCB F nameLen)
    (op : Op nameLen) : Prop :=
  ∀ ready, dataPoint P op cb = some ready → Good ready

instance {Good : IntcpTransCB F nameLen → Prop} [∀ cb, Decidable (Good cb)]
    (cb : IntcpTransCB F nameLen) (op : Op nameLen) : Decidable (AtFlush P Good cb op) :=
  inferInstanceAs (Decidable (∀ ready ∈ dataPoint P op cb, Good ready))

structure Limited (cb : IntcpTransCB F nameLen) : Prop where
  limit : 0 ≤ cb.dataOutputLimit.toInt
  sized : ∀ seg ∈ cb.sndQueue, Sized seg

lemma limited_move {T : Traffic} {cb cb' : IntcpTransCB F nameLen} (h : Limited cb)
    (move : Move P T cb cb') : Limited cb' := by
  cases move with
  | idle same => exact ⟨same.dataOutputLimit ▸ h.limit, same.sndQueue ▸ h.sized⟩
  | queue segs sized =>
    refine ⟨h.limit, ?_⟩
    intro seg hseg
    rcases List.mem_append.mp hseg with hseg | hseg
    · exact h.sized seg hseg
    · exact sized seg hseg
  | deliver maxBufSize =>
    rw [recv]
    split
    · exact h
    · split
      · split
        · exact ⟨h.limit, h.sized⟩
        · split
          · exact ⟨h.limit, h.sized⟩
          · exact h
      · exact ⟨h.limit, h.sized⟩
  | _ => exact ⟨h.limit, h.sized⟩

lemma limited_ready {op : Op nameLen} {cb ready : IntcpTransCB F nameLen} (h : Limited cb)
    (point : dataPoint P op cb = some ready) : Limited ready :=
  have moves : Moves P .any cb ready := dataPoint_moves point
  moves.keep Limited (fun _ _ hcb move => limited_move hcb move) h

/-- A flush that keeps the limit leaves a state from which the next one starts. -/
lemma limited_step {op : Op nameLen} {cb cb' : IntcpTransCB F nameLen} (sized : GivesSized op)
    (h : Limited cb) (keeps : AtFlush P (KeepsLimit P) cb op) (step : op.step P cb = some cb') :
    Limited cb' := by
  rcases step_cases (opBrings_any sized) step with ⟨ready, ts, next, hpoint, _, rfl⟩ | ⟨_, moves⟩
  · obtain ⟨⟨gone, hgone, _⟩, hlimit⟩ := keeps ready hpoint
    have hready := limited_ready h hpoint
    refine ⟨hlimit, ?_⟩
    intro seg hseg
    exact hready.sized seg (hgone ▸ List.mem_append_right gone hseg)
  · exact moves.keep Limited (fun _ _ hcb move => limited_move hcb move) h

lemma atFlush_iff {P : Platform Rat} (exact : ExactRates P) {op : Op nameLen}
    {cb : IntcpTransCB Rat nameLen} (h : Limited cb) :
    AtFlush P (KeepsLimit P) cb op ↔ AtFlush P (Covered P) cb op := by
  refine forall_congr' fun ready => forall_congr' fun hpoint => ?_
  have hready := limited_ready h hpoint
  rw [keepsLimit_iff hready.limit hready.sized, newOutput_exact exact, Covered]

lemma limited_create (role : Role) (nameChars : Vector UInt8 nameLen) (cache : Cache nameLen) :
    Limited (.create P role nameChars cache : IntcpTransCB F nameLen) := by
  constructor
  · simp only [IntcpTransCB.create]
    decide
  · intro seg hseg
    cases hseg

/-- With exact rates, the flushes of a run keep the limit if and only if all of them are
covered. -/
theorem run_keepsLimit_iff {P : Platform Rat} (exact : ExactRates P) (role : Role)
    (nameChars : Vector UInt8 nameLen) (cache : Cache nameLen) (ops : List (Op nameLen))
    (sized : ∀ op ∈ ops, GivesSized op) :
    Along (Op.step P) (AtFlush P (KeepsLimit P)) (.create P role nameChars cache) ops ↔
      Along (Op.step P) (AtFlush P (Covered P)) (.create P role nameChars cache) ops :=
  along_congr Limited (fun _ _ h _ => atFlush_iff exact h)
    (fun _ _ _ h hsized keeps step => limited_step hsized h keeps step)
    (limited_create role nameChars cache) sized

/-- A responder is told a rate, flushes, and has 5000 bytes to send. -/
def ratedRun (wnd : Int16) : List (Op 1) :=
  [.input (encodeSeg (intSeg 0 0 0 0 0 wnd)), .update, .sendData (fun _ => 7) 0 5000, .update]

theorem positiveRate_keepsLimit :
    Along (Op.step freeClock) (AtFlush freeClock (KeepsLimit freeClock))
      (.create freeClock .responder #v[110] (Cache.fresh fun _ _ => 0)) (ratedRun 100) :=
  (run_keepsLimit_iff (exact_exactRates _) .responder #v[110] (Cache.fresh fun _ _ => 0)
    (ratedRun 100) (by decide +kernel)).mpr (by decide +kernel)

/-- What was taken from the queue is the difference of its sizes. -/
lemma KeepsLimit.taken {cb : IntcpTransCB F nameLen} (h : KeepsLimit P cb) :
    (sndTotal cb.sndQueue : Int) ≤ sndTotal (flushData P cb).sndQueue +
      max 0 (cb.dataOutputLimit.toInt + (newOutput P cb).toInt) := by
  obtain ⟨⟨gone, hgone, hbound⟩, _⟩ := h
  have hsize : sndTotal cb.sndQueue = sndTotal gone + sndTotal (flushData P cb).sndQueue := by
    rw [hgone]
    simp [sndTotal]
  omega

/-- Told -1 Mbit/s, the responder sends all 5000 bytes with nothing to its credit. -/
theorem negativeRate_bypasses :
    ¬ Along (Op.step freeClock) (AtFlush freeClock (KeepsLimit freeClock))
      (.create freeClock .responder #v[110] (Cache.fresh fun _ _ => 0)) (ratedRun (-100)) := by
  intro keeps
  have taken := along_mono (fun _ _ h ready point => (h ready point).taken) keeps
  revert taken
  decide +kernel

end OutputLimit
