import Intcp.ExactFloats
import Intcp.StepRuns
import Mathlib.Analysis.SpecialFunctions.Pow.Real

/-!
# The floor of the congestion window

Congestion avoidance never takes `cwnd` below `INTCP_CWND_MIN`. Slow start sets
it to a multiple of the whole segments received so far, without the floor: what
keeps it up is a hop RTT that is long enough for their number.
-/

namespace WindowFloor

open StepRuns Words BlockCache TransControl RateControl ExactFloats

universe u
variable {F : Type u} {K : Type u} {nameLen : Nat}

/-- What is measured before a call of `updateCwnd`, and its argument. -/
structure Call (K : Type u) where
  hopSrtt : Int32
  thrpLastPeriod : K
  hrttQueue : List (UInt32 × Int32)
  dataLen : UInt32

def Call.measure (call : Call F) (cb : IntcpTransCB F nameLen) : IntcpTransCB F nameLen :=
  { cb with cc := { cb.cc with
      hopSrtt := call.hopSrtt
      thrpLastPeriod := call.thrpLastPeriod
      hrttQueue := call.hrttQueue } }

def Call.step (P : Platform F) (call : Call F) (cb : IntcpTransCB F nameLen) :
    Option (IntcpTransCB F nameLen) :=
  some (updateCwnd P (call.measure cb) call.dataLen)

/-- Whether `updateCwnd` sees congestion. -/
def signalAt (P : Platform F) (cb : IntcpTransCB F nameLen) : Bool :=
  congSignal P cb.cc (minHrtt 99999999 (sampleHrtt P cb.cc (getMillisec P cb)))

/-- The call takes the branch of slow start that sets the window. -/
def StaysSlow (P : Platform F) (cb : IntcpTransCB F nameLen) : Prop :=
  cb.cc.ccState = .slowStart ∧ signalAt P cb = false ∧
    P.le (fofInt P intcpSsthreshInit.toNat) cb.cc.cwnd = false

/-- The whole segments received so far, with `dataLen` more bytes. -/
def wholeSegs (cc : CongControl F) (dataLen : UInt32) : Nat :=
  ((cc.ccDataLen + dataLen.toInt32).toUInt32 / intcpMss).toNat

/-- The control state when the window is looked at. -/
def entering (P : Platform F) (cb : IntcpTransCB F nameLen) (dataLen : UInt32) : CongControl F :=
  { cb.cc with
    hrttQueue := sampleHrtt P cb.cc (getMillisec P cb)
    ccDataLen := cb.cc.ccDataLen + dataLen.toInt32 }

/-- What the slow start branch leaves for congestion avoidance. -/
def afterSlowStart (P : Platform F) (cb : IntcpTransCB F nameLen) (dataLen : UInt32) :
    CongControl F :=
  if (entering P cb dataLen).ccState = .slowStart then
    slowStart P (entering P cb dataLen) (signalAt P cb)
  else entering P cb dataLen

lemma updateCwnd_cc (P : Platform F) (cb : IntcpTransCB F nameLen) (dataLen : UInt32) :
    (updateCwnd P cb dataLen).cc =
      if (afterSlowStart P cb dataLen).ccState = .congAvoid ∧
          allow_cwnd_decrease (afterSlowStart P cb dataLen) (getMillisec P cb) then
        congAvoid P (afterSlowStart P cb dataLen) (getMillisec P cb) (signalAt P cb)
          (minHrtt 99999999 (sampleHrtt P cb.cc (getMillisec P cb)))
      else afterSlowStart P cb dataLen := rfl

/-- A call that stays in slow start does nothing else. -/
lemma updateCwnd_slow {P : Platform F} {cb : IntcpTransCB F nameLen} (slow : StaysSlow P cb)
    (dataLen : UInt32) :
    (updateCwnd P cb dataLen).cc = slowStart P (entering P cb dataLen) false := by
  obtain ⟨hstate, hsignal, hlow⟩ := slow
  have hafter : afterSlowStart P cb dataLen = slowStart P (entering P cb dataLen) false := by
    rw [afterSlowStart, hsignal]
    exact if_pos hstate
  have hstays : (slowStart P (entering P cb dataLen) false).ccState = .slowStart := by
    have hbranch : ¬ (false || P.le (fofInt P intcpSsthreshInit.toNat)
        (entering P cb dataLen).cwnd) = true := by
      simpa [entering] using hlow
    rw [slowStart, if_neg hbranch]
    exact hstate
  rw [updateCwnd_cc, hafter, hstays]
  exact if_neg nofun

/-- Every other call takes the window as it is to congestion avoidance. -/
lemma afterSlowStart_fast {P : Platform F} {cb : IntcpTransCB F nameLen} (fast : ¬ StaysSlow P cb)
    (dataLen : UInt32) : (afterSlowStart P cb dataLen).cwnd = cb.cc.cwnd := by
  rw [afterSlowStart]
  split
  · rename_i hstate
    have hbranch : (signalAt P cb ||
        P.le (fofInt P intcpSsthreshInit.toNat) (entering P cb dataLen).cwnd) = true := by
      by_contra hneither
      rw [Bool.not_eq_true, Bool.or_eq_false_iff] at hneither
      exact fast ⟨hstate, hneither⟩
    rw [slowStart, if_pos hbranch]
    rfl
  · rfl

section Exact

variable [Field K] [LinearOrder K] [FloorRing K] (machine : Machine K)

/-- `2 ^ min(5, hopSrtt / INTCP_RTT0)` -/
def gain (hopSrtt : Int32) : K := machine.pow 2 (min 5 (hopSrtt.toInt / 30))

/-- In slow start a whole segment was received, and the gain outweighs their number. -/
def Ample (cb : IntcpTransCB K nameLen) (call : Call K) : Prop :=
  StaysSlow (exactly machine) (call.measure cb) →
    0 < wholeSegs cb.cc call.dataLen ∧
      1 + 1 / (5 * (wholeSegs cb.cc call.dataLen : K)) ≤ gain machine call.hopSrtt

/-- The window after a call is not below its floor. -/
def KeepsFloor (cb : IntcpTransCB K nameLen) (call : Call K) : Prop :=
  cwndMin (exactly machine) ≤
    (updateCwnd (exactly machine) (call.measure cb) call.dataLen).cc.cwnd

/-- What slow start makes of the window. -/
lemma slowStart_cwnd {cc : CongControl K} {signal : Bool} (slow : signal = false)
    (low : (exactly machine).le (fofInt (exactly machine) intcpSsthreshInit.toNat) cc.cwnd =
      false) :
    (slowStart (exactly machine) cc signal).cwnd =
      ((cc.ccDataLen.toUInt32 / intcpMss).toNat : K) * (gain machine cc.hopSrtt - 1) := by
  have hrtt0 : intcpRtt0.toNat = 30 := rfl
  rw [slowStart, slow, low, Bool.or_self, if_neg Bool.false_ne_true]
  simp only [fmin_exactly, hrtt0]
  simp only [exactly, gain, Int.cast_natCast, Nat.cast_ofNat, Int.cast_ofNat, Int.cast_one, pow_zero,
    div_one]

variable [IsStrictOrderedRing K]

/-- Congestion avoidance keeps the floor. -/
lemma congAvoid_floor {cc : CongControl K} (floor : cwndMin (exactly machine) ≤ cc.cwnd)
    (current : UInt32) (signal : Bool) (least : Int32) :
    cwndMin (exactly machine) ≤ (congAvoid (exactly machine) cc current signal least).cwnd := by
  simp only [congAvoid]
  split
  · simp only [fmax_exactly]
    exact le_max_right _ _
  · split
    · have hone : fadd (exactly machine) cc.cwnd (fofInt (exactly machine) 1) = cc.cwnd + 1 := by
        rw [fofInt_exactly, Int.cast_one]
        rfl
      simp only [hone]
      linarith
    · split
      · simp only [fmax_exactly]
        exact le_max_left _ _
      · exact floor

lemma floor_iff (n : Nat) (g : K) :
    1 / 5 ≤ (n : K) * (g - 1) ↔ 0 < n ∧ 1 + 1 / (5 * (n : K)) ≤ g := by
  rcases Nat.eq_zero_or_pos n with rfl | hpos
  · simp
  · have hn : (0 : K) < n := by exact_mod_cast hpos
    have hscale : (1 : K) / (5 * n) * n = 1 / 5 := by field_simp
    rw [and_iff_right hpos, ← hscale, mul_comm (n : K) (g - 1), mul_le_mul_iff_left₀ hn]
    constructor <;> intro h <;> linarith

end Exact

section Floor

variable [Field K] [LinearOrder K] [IsStrictOrderedRing K] [FloorRing K] (machine : Machine K)

/-- A call that finds the window above its floor leaves it so exactly if it is ample. -/
lemma keepsFloor_iff {cb : IntcpTransCB K nameLen} (floor : cwndMin (exactly machine) ≤ cb.cc.cwnd)
    (call : Call K) : KeepsFloor machine cb call ↔ Ample machine cb call := by
  have hwindow : (call.measure cb).cc.cwnd = cb.cc.cwnd := rfl
  by_cases slow : StaysSlow (exactly machine) (call.measure cb)
  · have hlow := slow.2.2
    have hset : (updateCwnd (exactly machine) (call.measure cb) call.dataLen).cc.cwnd =
        (wholeSegs cb.cc call.dataLen : K) * (gain machine call.hopSrtt - 1) := by
      rw [updateCwnd_slow slow]
      exact slowStart_cwnd machine rfl hlow
    rw [KeepsFloor, Ample, forall_prop_of_true slow, ← floor_iff, hset, cwndMin_exactly]
  · have hafter := (afterSlowStart_fast slow call.dataLen).trans hwindow
    have hkeeps : KeepsFloor machine cb call := by
      rw [KeepsFloor, updateCwnd_cc]
      split
      · exact congAvoid_floor machine (hafter ▸ floor) _ _ _
      · exact hafter ▸ floor
    exact iff_of_true hkeeps fun h => absurd h slow

/-- In any series of calls the floor is kept exactly if every call is ample. -/
theorem calls_keepFloor_iff (machine : Machine K) (role : Role) (nameChars : Vector UInt8 nameLen)
    (cache : Cache nameLen) (calls : List (Call K)) :
    Along (Call.step (exactly machine)) (KeepsFloor machine)
        (.create (exactly machine) role nameChars cache) calls ↔
      Along (Call.step (exactly machine)) (Ample machine)
        (.create (exactly machine) role nameChars cache) calls := by
  refine along_congr
    (fun cb : IntcpTransCB K nameLen => cwndMin (exactly machine) ≤ cb.cc.cwnd) ?_ ?_ (le_refl _)
    fun _ _ => trivial
  · exact fun cb call floor _ => keepsFloor_iff machine floor call
  · intro cb cb' call _ _ keeps step
    cases step
    exact keeps

lemma congSignal_unmeasured {cc : CongControl K} (unmeasured : cc.thrpLastPeriod = 0)
    (least : Int32) : congSignal (exactly machine) cc least = false := by
  have hzero : truncate (0 * ((125000 : Int) : K)) = 0 := by simp [truncate]
  have hbytes : mbitToBytes (exactly machine) (0 : K) = 0 := by
    rw [mbitToBytes, fofInt_exactly]
    exact congrArg Int32.ofInt hzero
  have hthreshold : queueingThreshold (exactly machine) = (3000 : K) := by
    simp [queueingThreshold, exactly]
  have hproduct : (0 * (cc.hopSrtt - least) / 1000).toInt = 0 := by
    rw [Int32.zero_mul]
    decide
  rw [congSignal, unmeasured, hbytes, hthreshold, hproduct, fofInt_exactly (n := 0)]
  split
  · rfl
  · exact decide_eq_false (by norm_num)

/-- While no throughput was measured, the first call stays in slow start. -/
lemma create_slow (role : Role) (nameChars : Vector UInt8 nameLen) (cache : Cache nameLen)
    {call : Call K} (unmeasured : call.thrpLastPeriod = 0) :
    StaysSlow (exactly machine)
      (call.measure (.create (exactly machine) role nameChars cache)) := by
  refine ⟨rfl, congSignal_unmeasured machine unmeasured _, ?_⟩
  have hcwnd : (call.measure (.create (exactly machine) role nameChars cache)).cc.cwnd =
      cwndMin (exactly machine) := rfl
  have hthresh : ((intcpSsthreshInit.toNat : Int) : K) = 100 := by
    have : intcpSsthreshInit.toNat = 100 := rfl
    rw [this]
    norm_num
  rw [hcwnd, cwndMin_exactly, fofInt_exactly, hthresh]
  exact decide_eq_false (by norm_num)

end Floor

lemma doubled_bound {n : Nat} (pos : 0 < n) {h : Nat} (long : 150 ≤ h) :
    (5 * n + 1) ^ 30 ≤ 2 ^ h * (5 * n) ^ 30 := by
  calc (5 * n + 1) ^ 30 ≤ (2 * (5 * n)) ^ 30 := Nat.pow_le_pow_left (by omega) 30
    _ = 2 ^ 30 * (5 * n) ^ 30 := Nat.mul_pow _ _ _
    _ ≤ 2 ^ h * (5 * n) ^ 30 := Nat.mul_le_mul_right _ (Nat.pow_le_pow_right (by omega) (by omega))

/-- With real powers the gain outweighs `n` segments from a whole number of milliseconds on: 8 for
the first segment, 5 for two, and 1 from nine on. -/
theorem real_gain_iff {n : Nat} (pos : 0 < n) (h : Nat) :
    1 + 1 / (5 * (n : ℝ)) ≤ (2 : ℝ) ^ min 5 ((h : ℝ) / 30) ↔
      (5 * n + 1) ^ 30 ≤ 2 ^ h * (5 * n) ^ 30 := by
  have hn : (0 : ℝ) < 5 * n := by
    have : (0 : ℝ) < n := by exact_mod_cast pos
    positivity
  have hquotient : 1 + 1 / (5 * (n : ℝ)) = (5 * n + 1) / (5 * n) := by field_simp
  rw [hquotient]
  by_cases long : 150 ≤ h
  · -- the cap of the exponent is reached, and both sides hold
    have hcap : min 5 ((h : ℝ) / 30) = (5 : ℕ) := by
      have : (150 : ℝ) ≤ h := by exact_mod_cast long
      rw [min_eq_left (by linarith)]
      norm_num
    refine iff_of_true ?_ (doubled_bound pos long)
    rw [hcap, Real.rpow_natCast, div_le_iff₀ hn]
    have : (1 : ℝ) ≤ n := by exact_mod_cast pos
    linarith
  · have hexponent : min 5 ((h : ℝ) / 30) = h / 30 := by
      have : (h : ℝ) < 150 := by exact_mod_cast not_le.mp long
      exact min_eq_right (by linarith)
    have hthirty : ((2 : ℝ) ^ ((h : ℝ) / 30)) ^ 30 = 2 ^ h := by
      rw [← Real.rpow_natCast, ← Real.rpow_mul (by norm_num), ← Real.rpow_natCast]
      norm_num
    have hleft : (0 : ℝ) ≤ (5 * n + 1) / (5 * n) := by positivity
    have hright : (0 : ℝ) ≤ 2 ^ ((h : ℝ) / 30) := by positivity
    rw [hexponent, ← pow_le_pow_iff_left₀ hleft hright (by norm_num : 30 ≠ 0), hthirty, div_pow,
      div_le_iff₀ (by positivity)]
    exact_mod_cast Iff.rfl

noncomputable def realMachine : Machine ℝ where
  clock := fun n => UInt32.ofNat n
  raw := 0
  emptyBack := 0
  pow := fun a b => a ^ b

/-- A full segment with a hop RTT of 30 ms doubles what it outweighs. -/
theorem full_segment_keepsFloor :
    Along (Call.step (exactly realMachine)) (KeepsFloor realMachine)
      (.create (exactly realMachine) .midnode #v[119] (Cache.fresh fun _ _ => 0))
      [⟨30, 0, [], 1449⟩] := by
  refine (calls_keepFloor_iff realMachine .midnode _ _ _).mpr ⟨fun _ => ?_, fun _ _ => trivial⟩
  have hone : wholeSegs (IntcpTransCB.create (exactly realMachine) .midnode #v[119]
      (Cache.fresh fun _ _ => 0)).cc 1449 = 1 := rfl
  have hgain : gain realMachine 30 = (2 : ℝ) ^ min 5 (((30 : Nat) : ℝ) / 30) := by
    simp [gain, realMachine]
  rw [hone, hgain, real_gain_iff Nat.one_pos]
  norm_num

/-- The first segment of a session, a byte short of full, takes the window to 0. -/
theorem short_segment_loses_window :
    ¬ Along (Call.step (exactly realMachine)) (KeepsFloor realMachine)
      (.create (exactly realMachine) .midnode #v[119] (Cache.fresh fun _ _ => 0))
      [⟨30, 0, [], 1448⟩] := by
  rintro ⟨keeps, _⟩
  have hample := (keepsFloor_iff realMachine (le_refl _) _).mp keeps
  exact absurd (hample (create_slow realMachine .midnode _ _ rfl)).1 (by decide)

end WindowFloor
