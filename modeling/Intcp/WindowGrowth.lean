import Intcp.HrttHistory
import Intcp.WindowFloor

/-!
# What pays for the congestion window

In congestion avoidance the window grows by a segment when a tenth of a window has been
received, and sinks by a tenth of a segment when half a window has and the throughput is
low. So the square of the window and the data saved up for the next change are paid for by
what is received, 70 for a full segment; only a reduction sets the window anew.
-/

namespace WindowGrowth

open StepRuns Words BlockCache TransControl SegmentCodec RateControl NodeCore InputLoop HrttHistory
open ExactFloats WindowFloor

universe u
variable {K : Type u} [Field K] [LinearOrder K] [FloorRing K] {nameLen : Nat}

/-- The square of the window, and what `ccDataLen` has saved up. -/
def credit (cc : CongControl K) : K := cc.cwnd ^ 2 + 70 * (cc.ccDataLen.toInt : K) / 1449

/-- In congestion avoidance, and not below the floor. -/
structure Avoiding (cc : CongControl K) : Prop where
  state : cc.ccState = .congAvoid
  floor : 1 / 5 ≤ cc.cwnd
  saved : 0 ≤ cc.ccDataLen.toInt

section Call

variable (machine : Machine K) {cc : CongControl K}

lemma fdiv_exactly (a b : K) : fdiv (exactly machine) a b = a / b := rfl

lemma cwndBytes_exactly (cwnd : K) : cwndBytes (exactly machine) cwnd = cwnd * 1449 := by
  have hmss : ((intcpMss.toNat : Int) : K) = 1449 := by
    have : intcpMss.toNat = 1449 := rfl
    rw [this]
    norm_num
  rw [← hmss]
  rfl

/-- What the window does where no congestion is seen. -/
lemma congAvoid_cases (cc : CongControl K) (current : UInt32) (least : Int32) :
    let out := congAvoid (exactly machine) cc current false least
    out = cc ∨ out.ccState = cc.ccState ∧ out.ccDataLen = 0 ∧
      (cc.cwnd * 1449 / 10 < cc.ccDataLen.toInt ∧ out.cwnd = cc.cwnd + 1 ∨
        out.cwnd = max (1 / 5) (cc.cwnd - 1 / 10)) := by
  simp only [congAvoid, Bool.false_eq_true, if_false]
  split
  · rename_i hgrow
    rw [Bool.and_eq_true] at hgrow
    have htaken : cc.cwnd * 1449 / 10 < cc.ccDataLen.toInt := by
      have h := of_decide_eq_true hgrow.1
      rwa [cwndBytes_exactly, fofInt_exactly, fofInt_exactly, fdiv_exactly, Int.cast_ofNat] at h
    have hwindow : fadd (exactly machine) cc.cwnd (fofInt (exactly machine) 1) = cc.cwnd + 1 := by
      rw [fofInt_exactly, Int.cast_one]
      rfl
    exact Or.inr ⟨rfl, rfl, Or.inl ⟨htaken, hwindow⟩⟩
  · split
    · have htenth : (exactly machine).single ((exactly machine).decimal 1 1) = (1 / 10 : K) := by
        simp [exactly]
      have hwindow : fmax (exactly machine) (cwndMin (exactly machine))
          (fsub (exactly machine) cc.cwnd
            ((exactly machine).single ((exactly machine).decimal 1 1))) =
          max (1 / 5) (cc.cwnd - 1 / 10) := by
        rw [fmax_exactly, cwndMin_exactly, htenth]
        rfl
      exact Or.inr ⟨rfl, rfl, Or.inr hwindow⟩
    · exact Or.inl rfl

variable [IsStrictOrderedRing K]

/-- Without a signal no credit comes into being: a step up takes a tenth of a window, which at
the floor and above is worth what the square grows by. -/
lemma congAvoid_unsignalled (avoiding : Avoiding cc) (current : UInt32) (least : Int32) :
    let out := congAvoid (exactly machine) cc current false least
    Avoiding out ∧ out.ccDataLen.toInt ≤ cc.ccDataLen.toInt ∧ credit out ≤ credit cc := by
  have hfloor := avoiding.floor
  have hsaved : (0 : K) ≤ cc.ccDataLen.toInt := by exact_mod_cast avoiding.saved
  rcases congAvoid_cases machine cc current least with hsame | ⟨hstate, hdata, hwindow⟩
  · simp only [hsame]
    exact ⟨avoiding, le_rfl, le_rfl⟩
  · have hzero : (congAvoid (exactly machine) cc current false least).ccDataLen.toInt = 0 := by
      rw [hdata]
      rfl
    have hcredit : credit (congAvoid (exactly machine) cc current false least) =
        (congAvoid (exactly machine) cc current false least).cwnd ^ 2 := by
      simp [credit, hzero]
    rcases hwindow with ⟨htaken, hgrown⟩ | hsunk
    · refine ⟨⟨hstate.trans avoiding.state, ?_, hzero.ge⟩, hzero.trans_le avoiding.saved, ?_⟩
      · rw [hgrown]
        linarith
      · have hpaid : 7 * cc.cwnd ≤ 70 * (cc.ccDataLen.toInt : K) / 1449 := by linarith
        rw [hcredit, hgrown, credit]
        nlinarith
    · refine ⟨⟨hstate.trans avoiding.state, ?_, hzero.ge⟩, hzero.trans_le avoiding.saved, ?_⟩
      · rw [hsunk]
        exact le_max_left _ _
      · have hless : max (1 / 5) (cc.cwnd - 1 / 10) ≤ cc.cwnd := by
          refine max_le hfloor ?_
          linarith
        have hmore : (0 : K) ≤ max (1 / 5) (cc.cwnd - 1 / 10) := le_max_of_le_left (by norm_num)
        have hpaid : (0 : K) ≤ 70 * (cc.ccDataLen.toInt : K) / 1449 := by positivity
        rw [hcredit, hsunk, credit]
        exact (pow_le_pow_left₀ hmore hless 2).trans (le_add_of_nonneg_right hpaid)

omit [IsStrictOrderedRing K] in
/-- A reduction leaves a window not below the floor, and nothing saved up. -/
lemma congAvoid_signalled (cc : CongControl K) (current : UInt32) (least : Int32) :
    let out := congAvoid (exactly machine) cc current true least
    out.ccState = cc.ccState ∧ out.ccDataLen = 0 ∧ 1 / 5 ≤ out.cwnd := by
  simp only [congAvoid, if_true]
  refine ⟨trivial, trivial, ?_⟩
  rw [fmax_exactly, cwndMin_exactly]
  exact le_max_right _ _

/-- The window that a reduction in this call of `updateCwnd` would set. -/
def reduced (cb : IntcpTransCB K nameLen) (dataLen : UInt32) : K :=
  (congAvoid (exactly machine) (entering (exactly machine) cb dataLen)
    (getMillisec (exactly machine) cb) true
    (minHrtt 99999999 (sampleHrtt (exactly machine) cb.cc (getMillisec (exactly machine) cb)))).cwnd

/-- If the call reduces the window, then to no more than `most`. -/
def ReducesTo (most : K) (cb : IntcpTransCB K nameLen) (dataLen : UInt32) : Prop :=
  signalAt (exactly machine) cb = true →
    allow_cwnd_decrease (entering (exactly machine) cb dataLen) (getMillisec (exactly machine) cb) →
      reduced machine cb dataLen ≤ most

instance (most : K) (cb : IntcpTransCB K nameLen) (dataLen : UInt32) :
    Decidable (ReducesTo machine most cb dataLen) :=
  inferInstanceAs (Decidable (_ → _ → _))

lemma toInt_saved {a : Int32} {n : UInt32} (saved : 0 ≤ a.toInt)
    (few : a.toInt + n.toNat < 2 ^ 31) : (a + n.toInt32).toInt = a.toInt + n.toNat := by
  have hn : n.toInt32.toInt = n.toNat := toInt_toInt32 (by omega)
  rw [Int32.toInt_add, hn, Int.bmod_eq_of_le (by omega) (by omega)]

/-- The data of a call pays for what the call does to the window. -/
theorem updateCwnd_credit {most : K} {cb : IntcpTransCB K nameLen} {dataLen : UInt32}
    (avoiding : Avoiding cb.cc) (few : cb.cc.ccDataLen.toInt + dataLen.toNat < 2 ^ 31)
    (reduces : ReducesTo machine most cb dataLen) :
    let out := (updateCwnd (exactly machine) cb dataLen).cc
    Avoiding out ∧ out.ccDataLen.toInt ≤ cb.cc.ccDataLen.toInt + dataLen.toNat ∧
      credit out ≤ max (credit cb.cc + 70 * (dataLen.toNat : K) / 1449) (most ^ 2) := by
  have hdata : (entering (exactly machine) cb dataLen).ccDataLen.toInt =
      cb.cc.ccDataLen.toInt + dataLen.toNat := toInt_saved avoiding.saved few
  have hentering : Avoiding (entering (exactly machine) cb dataLen) := by
    refine ⟨avoiding.state, avoiding.floor, ?_⟩
    have := avoiding.saved
    omega
  have hcredit : credit (entering (exactly machine) cb dataLen) =
      credit cb.cc + 70 * (dataLen.toNat : K) / 1449 := by
    have hwindow : (entering (exactly machine) cb dataLen).cwnd = cb.cc.cwnd := rfl
    rw [credit, credit, hdata, hwindow]
    push_cast
    ring
  have hafter : afterSlowStart (exactly machine) cb dataLen =
      entering (exactly machine) cb dataLen :=
    if_neg (by rw [hentering.state]; decide)
  simp only [updateCwnd_cc, hafter]
  split
  · rename_i hallowed
    cases hsignal : signalAt (exactly machine) cb with
    | false =>
      obtain ⟨hout, hless, hpaid⟩ := congAvoid_unsignalled machine hentering
        (getMillisec (exactly machine) cb)
        (minHrtt 99999999 (sampleHrtt (exactly machine) cb.cc (getMillisec (exactly machine) cb)))
      exact ⟨hout, hless.trans hdata.le, hpaid.trans (hcredit.le.trans (le_max_left _ _))⟩
    | true =>
      obtain ⟨hstate, hzero, hfloor⟩ := congAvoid_signalled machine
        (entering (exactly machine) cb dataLen) (getMillisec (exactly machine) cb)
        (minHrtt 99999999 (sampleHrtt (exactly machine) cb.cc (getMillisec (exactly machine) cb)))
      have hmost := reduces hsignal hallowed.2
      rw [reduced] at hmost
      have hnone : (0 : Int32).toInt = 0 := rfl
      refine ⟨⟨hstate.trans hentering.state, hfloor, by rw [hzero, hnone]⟩, ?_, ?_⟩
      · rw [hzero, hnone]
        have := avoiding.saved
        omega
      · refine le_max_of_le_right ?_
        rw [credit, hzero, hnone, Int.cast_zero, mul_zero, zero_div, add_zero]
        exact pow_le_pow_left₀ (by linarith) hmost 2
  · exact ⟨hentering, hdata.le, hcredit.le.trans (le_max_left _ _)⟩

end Call

/-- The bytes that a segment has the window look at. -/
def feeds (s : IntcpSeg) : Nat := if s.cmd = intcpCmdInt then 0 else s.len.toNat

def fed (P : Platform K) : Op nameLen → Nat
  | .input data => ((decode P.raw data).2.map feeds).sum
  | _ => 0

/-- After `n` bytes of data. -/
structure Paid (most : K) (first : CongControl K) (n : Nat) (cc : CongControl K) : Prop extends
    Avoiding cc where
  saves : cc.ccDataLen.toInt ≤ first.ccDataLen.toInt + n
  paid : credit cc ≤ max (credit first) (most ^ 2) + 70 * (n : K) / 1449

section Runs

variable [IsStrictOrderedRing K] {machine : Machine K} {most : K} {first : CongControl K} {n : Nat}
  {cb cb' : IntcpTransCB K nameLen}

omit [FloorRing K] in
lemma Paid.more {cc : CongControl K} (h : Paid most first n cc) (m : Nat) :
    Paid most first (n + m) cc where
  toAvoiding := h.toAvoiding
  saves := h.saves.trans (by omega)
  paid := by
    refine h.paid.trans ?_
    have hm : (0 : K) ≤ m := Nat.cast_nonneg m
    push_cast
    linarith

omit [IsStrictOrderedRing K] [FloorRing K] in
lemma Paid.quiet {P : Platform K} (h : Paid most first n cb.cc) (quiet : Unmeasured P cb cb') :
    Paid most first n cb'.cc := by
  obtain ⟨flag, hcc⟩ := quiet.control
  rw [hcc]
  exact ⟨⟨h.state, h.floor, h.saved⟩, h.saves, h.paid⟩

omit [IsStrictOrderedRing K] [Field K] [LinearOrder K] [FloorRing K] in
/-- Measuring leaves the window and what is saved alone. -/
lemma measured_window {P : Platform K} (cb : IntcpTransCB K nameLen) (s : IntcpSeg) :
    (measured P cb s).cc.ccState = cb.cc.ccState ∧ (measured P cb s).cc.cwnd = cb.cc.cwnd ∧
      (measured P cb s).cc.ccDataLen = cb.cc.ccDataLen := by
  have hflow : (takeWnd (tick cb) s).cc = cb.cc := by
    rw [takeWnd]
    split <;> rfl
  have hestimate : ∀ (cc : CongControl K) rtt, (updateHopRTT cc rtt).ccState = cc.ccState ∧
      (updateHopRTT cc rtt).cwnd = cc.cwnd ∧ (updateHopRTT cc rtt).ccDataLen = cc.ccDataLen := by
    intro cc rtt
    rw [updateHopRTT]
    split
    · exact ⟨rfl, rfl, rfl⟩
    · exact ⟨rfl, rfl, rfl⟩
  have hthroughput : ∀ (cc : CongControl K) current len,
      (measureThroughput P cc current len).ccState = cc.ccState ∧
        (measureThroughput P cc current len).cwnd = cc.cwnd ∧
        (measureThroughput P cc current len).ccDataLen = cc.ccDataLen := by
    intro cc current len
    simp only [measureThroughput]
    split
    · exact ⟨rfl, rfl, rfl⟩
    · generalize (if cc.lastThrpUpdateTs = 0 then current else cc.lastThrpUpdateTs) = since
      split
      · exact ⟨rfl, rfl, rfl⟩
      · exact ⟨rfl, rfl, rfl⟩
  simp only [measured, sampleHop, hflow, hthroughput]
  split
  · simp only [hestimate]
    exact ⟨trivial, trivial, trivial⟩
  · exact ⟨rfl, rfl, rfl⟩

lemma handle_paid (h : Paid most first n cb.cc) (s : IntcpSeg)
    (few : first.ccDataLen.toInt + n + feeds s < 2 ^ 31)
    (reduces : s.cmd ≠ intcpCmdInt →
      ReducesTo machine most (measured (exactly machine) cb s) s.len) :
    Paid most first (n + feeds s) (handle (exactly machine) cb s).2.cc := by
  by_cases push : s.cmd = intcpCmdInt
  · exact (h.quiet (handle_interest cb push)).more (feeds s)
  · have hfeeds : feeds s = s.len.toNat := if_neg push
    rw [hfeeds] at few ⊢
    obtain ⟨hstate, hwindow, hdata⟩ := measured_window (P := exactly machine) cb s
    have hmeasured : Avoiding (measured (exactly machine) cb s).cc :=
      ⟨hstate.trans h.state, hwindow ▸ h.floor, hdata ▸ h.saved⟩
    have hcredit : credit (measured (exactly machine) cb s).cc = credit cb.cc := by
      rw [credit, credit, hwindow, hdata]
    have hsaves := h.saves
    obtain ⟨hout, hmore, hpaid⟩ := updateCwnd_credit machine hmeasured
      (by rw [hdata]; omega) (reduces push)
    rw [hcredit] at hpaid
    rw [hdata] at hmore
    have hcalled : Paid most first (n + s.len.toNat)
        (updateCwnd (exactly machine) (measured (exactly machine) cb s) s.len).cc := by
      refine ⟨hout, hmore.trans (by push_cast; omega), hpaid.trans (max_le ?_ ?_)⟩
      · have := h.paid
        push_cast
        linarith
      · have hdata : (0 : K) ≤ 70 * ((n + s.len.toNat : Nat) : K) / 1449 := by positivity
        exact (le_max_right _ _).trans (le_add_of_nonneg_right hdata)
    exact hcalled.quiet (handle_unmeasured cb push)

/-- A datagram pays with all of its data segments at most. -/
lemma handleAll_paid {segs : List IntcpSeg} (h : Paid most first n cb.cc)
    (few : first.ccDataLen.toInt + n + ((segs.map feeds).sum : Nat) < 2 ^ 31)
    (reduces : Along (pushStep (exactly machine)) (fun cb s => s.cmd ≠ intcpCmdInt →
      ReducesTo machine most (measured (exactly machine) cb s) s.len) cb segs) :
    Paid most first (n + (segs.map feeds).sum) (handleAll (exactly machine) cb segs).2.cc := by
  induction segs generalizing cb n with
  | nil => exact h
  | cons s rest ih =>
    rw [List.map_cons, List.sum_cons] at few ⊢
    have hnow := handle_paid h s (by omega) reduces.1
    rw [handleAll, ← Nat.add_assoc]
    cases hflag : (handle (exactly machine) cb s).1 with
    | true =>
      simp only [if_true]
      exact ih hnow (by omega) (reduces.2 _ (if_pos hflag))
    | false => simpa [hflag] using hnow.more _

lemma step_paid {op : Op nameLen} (h : Paid most first n cb.cc)
    (few : first.ccDataLen.toInt + n + (fed (exactly machine) op : Nat) < 2 ^ 31)
    (reduces : AtData (exactly machine) (fun cb s =>
      ReducesTo machine most (measured (exactly machine) cb s) s.len) cb op)
    (hstep : op.step (exactly machine) cb = some cb') :
    Paid most first (n + fed (exactly machine) op) cb'.cc := by
  by_cases hinput : ∃ data, op = .input data
  · obtain ⟨data, rfl⟩ := hinput
    rw [Op.step] at hstep
    by_cases hdead : cb.state = -1
    · rw [if_pos hdead] at hstep
      cases hstep
      exact h.more _
    · rw [if_neg hdead] at hstep
      cases hstep
      obtain ⟨reads, hfold⟩ := input_handleAll (P := exactly machine) cb data
      rw [hfold]
      exact handleAll_paid h few (reduces data rfl hdead)
  · exact (h.quiet (step_unmeasured (fun data h => hinput ⟨data, h⟩) hstep)).more _

lemma run_paid {ops : List (Op nameLen)} (h : Paid most first n cb.cc)
    (few : first.ccDataLen.toInt + n + ((ops.map (fed (exactly machine))).sum : Nat) < 2 ^ 31)
    (reduces : Along (Op.step (exactly machine)) (AtData (exactly machine) fun cb s =>
      ReducesTo machine most (measured (exactly machine) cb s) s.len) cb ops)
    (hrun : run (Op.step (exactly machine)) cb ops = some cb') :
    Paid most first (n + (ops.map (fed (exactly machine))).sum) cb'.cc := by
  induction ops generalizing cb n with
  | nil =>
    cases hrun
    exact h
  | cons op ops ih =>
    rw [List.map_cons, List.sum_cons] at few ⊢
    obtain ⟨next, hstep, hrest⟩ := Option.bind_eq_some_iff.mp hrun
    have hnow := step_paid h (by omega) reduces.1 hstep
    rw [← Nat.add_assoc]
    exact ih hnow (by omega) (reduces.2 next hstep) hrest

/-- In congestion avoidance the square of the window never exceeds what it and the reductions
started from by more than 70 for each full segment received. -/
theorem run_windowPaid {ops : List (Op nameLen)} (avoiding : Avoiding cb.cc)
    (few : cb.cc.ccDataLen.toInt + ((ops.map (fed (exactly machine))).sum : Nat) < 2 ^ 31)
    (reduces : Along (Op.step (exactly machine)) (AtData (exactly machine) fun cb s =>
      ReducesTo machine most (measured (exactly machine) cb s) s.len) cb ops)
    (hrun : run (Op.step (exactly machine)) cb ops = some cb') :
    cb'.cc.ccState = .congAvoid ∧ 1 / 5 ≤ cb'.cc.cwnd ∧
      cb'.cc.cwnd ^ 2 + 70 * (cb'.cc.ccDataLen.toInt : K) / 1449 ≤
        max (cb.cc.cwnd ^ 2 + 70 * (cb.cc.ccDataLen.toInt : K) / 1449) (most ^ 2) +
          70 * ((ops.map (fed (exactly machine))).sum : K) / 1449 := by
  have start : Paid most cb.cc 0 cb.cc := by
    refine ⟨avoiding, by omega, ?_⟩
    rw [Nat.cast_zero, mul_zero, zero_div, add_zero]
    exact le_max_left _ _
  have h := run_paid start (by omega) reduces hrun
  have hpaid := h.paid
  rw [Nat.zero_add] at hpaid
  exact ⟨h.state, h.floor, hpaid⟩

end Runs

/-- Each reading of the clock is 100 ms after the one before. -/
def slowMachine : Machine Rat := ⟨fun n => UInt32.ofNat (1000 + 100 * n), 0, 0, fun _ _ => 1⟩

/-- A requester in the middle of congestion avoidance, at half a megabit a second. -/
def loaded : IntcpTransCB Rat 1 :=
  let cb := IntcpTransCB.create (exactly slowMachine) .requester #v[99] (Cache.fresh fun _ _ => 0)
  { cb with cc := { cb.cc with
      ccState := .congAvoid
      ccDataLen := 2800
      cwnd := 20
      hopSrtt := 300
      thrpLastPeriod := 1 / 2
      lastThrpUpdateTs := 1290
      hrttQueue := [(990, 300)] } }

def stampedSeg (ts rangeStart len : UInt32) : IntcpSeg :=
  { DataPlane.pushSeg (exactly slowMachine) rangeStart (rangeStart + len) len
      (List.replicate len.toNat 9) List.length_replicate with ts := ts }

def growSeg : IntcpSeg := stampedSeg 900 0 100

/-- More than a second on its way. -/
def lateSeg : IntcpSeg := stampedSeg 100 100 1000

def savedSeg : IntcpSeg := stampedSeg 1300 1100 1000

def sawtooth : List (Op 1) := [.input (frame growSeg ++ frame lateSeg), .input (frame savedSeg)]

lemma sawtooth_reduces : Along (Op.step (exactly slowMachine)) (AtData (exactly slowMachine)
    fun cb s => ReducesTo slowMachine (5000 / 483) (measured (exactly slowMachine) cb s) s.len)
    loaded sawtooth := by
  have decoded : (decode (exactly slowMachine).raw (frame growSeg ++ frame lateSeg)).2 =
        [growSeg, lateSeg] ∧
      (decode (exactly slowMachine).raw (frame savedSeg)).2 = [savedSeg] := by
    decide +kernel
  refine ⟨?_, fun after hafter => ⟨?_, fun _ _ => trivial⟩⟩
  · intro data hdata alive
    cases hdata
    rw [decoded.1]
    decide +kernel
  · intro data hdata alive
    cases hdata
    rw [decoded.2]
    have hreduces : ∀ after ∈ Op.step (exactly slowMachine)
        (.input (frame growSeg ++ frame lateSeg)) loaded,
        Along (pushStep (exactly slowMachine)) (fun cb s => s.cmd ≠ intcpCmdInt →
          ReducesTo slowMachine (5000 / 483) (measured (exactly slowMachine) cb s) s.len)
          after [savedSeg] := by
      decide +kernel
    exact hreduces after hafter

/-- The first segment opens the window to 21, the second has it reduced to 5000 / 483, and the third
is saved up for the next step. -/
theorem run_windowPaid_sawtooth :
    ∃ cb', run (Op.step (exactly slowMachine)) loaded sawtooth = some cb' ∧
      cb'.cc.cwnd = 5000 / 483 ∧
      cb'.cc.cwnd ^ 2 + 70 * (cb'.cc.ccDataLen.toInt : Rat) / 1449 ≤
        max (20 ^ 2 + 70 * 2800 / 1449) ((5000 / 483) ^ 2) + 70 * 2100 / 1449 := by
  have hwindow : (run (Op.step (exactly slowMachine)) loaded sawtooth).map
      (fun cb => cb.cc.cwnd) = some (5000 / 483) := by
    decide +kernel
  obtain ⟨cb', hrun, hcwnd⟩ := Option.map_eq_some_iff.mp hwindow
  have hfed : (sawtooth.map (fed (exactly slowMachine))).sum = 2100 := by
    decide +kernel
  have hsaved : loaded.cc.ccDataLen.toInt = 2800 := rfl
  have avoiding : Avoiding loaded.cc := ⟨rfl, by norm_num [loaded], by decide⟩
  have few : loaded.cc.ccDataLen.toInt +
      ((sawtooth.map (fed (exactly slowMachine))).sum : Nat) < 2 ^ 31 := by
    rw [hfed, hsaved]
    decide
  obtain ⟨-, -, hpaid⟩ := run_windowPaid avoiding few sawtooth_reduces hrun
  have hstart : loaded.cc.cwnd = 20 := rfl
  rw [hfed, hsaved, hstart, Int.cast_ofNat, Nat.cast_ofNat] at hpaid
  exact ⟨cb', hrun, hcwnd, hpaid⟩

end WindowGrowth
