import Intcp.InputLoop
import Intcp.NodeMoves

/-!
# Hop RTT estimation

`input` samples the hop RTT of a data segment as the age of its time stamp, and
smooths the samples in `int`. The samples are recorded next to the node. This
build also samples the placeholder 0, which the other one leaves out, and casts
the age to `int` whatever it is.
-/

namespace HopRtt

open StepRuns Words BlockCache TransControl SegmentCodec RateControl DataPlane HoleTracking
  InterestPlane NodeCore CallRules InputLoop NodeMoves

universe u
variable {F : Type u} {nameLen : Nat} {P : Platform F}

/-- A node and the samples it was given, the last one first. -/
structure Observed (F : Type u) (nameLen : Nat) where
  node : IntcpTransCB F nameLen
  samples : List Nat

/-- A segment with a real time stamp in the past gives its age. -/
def sampleOf (current : UInt32) (s : IntcpSeg) : List Nat :=
  if s.ts ≠ 0 ∧ current > s.ts then [(current - s.ts).toNat] else []

def observeSeg (P : Platform F) (o : Observed F nameLen) (s : IntcpSeg) : Observed F nameLen :=
  ⟨(handle P o.node s).2,
    if s.cmd = intcpCmdInt then o.samples else sampleOf (getMillisec P o.node) s ++ o.samples⟩

/-- A round of the loop of `input`, where it goes on behind it. -/
def segStep (P : Platform F) (s : IntcpSeg) (o : Observed F nameLen) :
    Option (Observed F nameLen) :=
  if (handle P o.node s).1 then some (observeSeg P o s) else none

def observeAll (P : Platform F) : Observed F nameLen → List IntcpSeg → Observed F nameLen
  | o, [] => o
  | o, s :: rest =>
    if (handle P o.node s).1 then observeAll P (observeSeg P o s) rest else observeSeg P o s

/-- The samples after an operation; a node whose link is dead takes none. -/
def samplesAfter (P : Platform F) (op : Op nameLen) (o : Observed F nameLen) : List Nat :=
  if o.node.state = -1 then o.samples
  else match op with
    | .input data => (observeAll P o (decode P.raw data).2).samples
    | _ => o.samples

def observeOp (P : Platform F) (op : Op nameLen) (o : Observed F nameLen) :
    Option (Observed F nameLen) :=
  (op.step P o.node).map fun node => ⟨node, samplesAfter P op o⟩

/-- What holds of every data segment of a datagram when its turn comes. -/
def AtPush (P : Platform F) (Good : Observed F nameLen → IntcpSeg → Prop) (o : Observed F nameLen)
    (op : Op nameLen) : Prop :=
  ∀ data, op = .input data → o.node.state ≠ -1 →
    Along (segStep P) (fun o s => s.cmd ≠ intcpCmdInt → Good o s) o (decode P.raw data).2

/-- No estimate before the first sample, and later one between 1 and the largest sample. -/
structure Bounded (o : Observed F nameLen) : Prop where
  start : o.samples = [] → o.node.cc.hopSrtt.toInt = 0
  low : o.samples ≠ [] → 1 ≤ o.node.cc.hopSrtt.toInt
  high : o.samples ≠ [] → ∃ r ∈ o.samples, o.node.cc.hopSrtt.toInt ≤ r

/-- The measurements behind the RTT part of `input`. -/
def estimated (cc : CongControl F) (current : UInt32) (s : IntcpSeg) : CongControl F :=
  if current > s.ts then updateHopRTT cc (current - s.ts).toInt32 else cc

/-- What the throughput is divided by, where it is computed. -/
def divisor (cc : CongControl F) (current : UInt32) : Option UInt32 :=
  if cc.hopSrtt = 0 then .none
  else
    let since := if cc.lastThrpUpdateTs = 0 then current else cc.lastThrpUpdateTs
    if itimediff current since > cc.hopSrtt.toInt then some (current - since) else .none

lemma measureThroughput_divisor (cc : CongControl F) (current len : UInt32) :
    (measureThroughput P cc current len).thrpLastPeriod = match divisor cc current with
      | .none => cc.thrpLastPeriod
      | some d => fmul P (fdiv P (bytesToMbit P
          (cc.recvedBytesThisHRTT + (intcpOverhead + len).toInt32)) (fofInt P d.toNat)) (fofInt P 1000) := by
  simp only [measureThroughput, divisor]
  by_cases hzero : cc.hopSrtt = 0
  · simp only [if_pos hzero]
  · simp only [if_neg hzero]
    generalize (if cc.lastThrpUpdateTs = 0 then current else cc.lastThrpUpdateTs) = since
    by_cases hdue : itimediff current since > cc.hopSrtt.toInt
    · simp only [if_pos hdue]
    · simp only [if_neg hdue]

/-- The sum that `updateHopRTT` divides, as it stands there. -/
def smoothing (cc : CongControl F) (current : UInt32) (s : IntcpSeg) : Int :=
  7 * cc.hopSrtt.toInt + (current - s.ts).toInt32.toInt

structure Sane (P : Platform F) (o : Observed F nameLen) (s : IntcpSeg) : Prop where
  placeholder : s.ts = 0 → ¬ getMillisec P o.node > s.ts
  fits : getMillisec P o.node > s.ts → o.node.cc.hopSrtt ≠ 0 →
    -2 ^ 31 ≤ smoothing o.node.cc (getMillisec P o.node) s ∧
      smoothing o.node.cc (getMillisec P o.node) s < 2 ^ 31
  bounded : Bounded (observeSeg P o s)
  divides : divisor (estimated o.node.cc (getMillisec P o.node) s) (getMillisec P o.node) ≠ some 0

/-- A sampled segment has a real time stamp, and seven times any age sampled before leaves room
for its own in an `int`; ages below 2^28 ms always do. -/
def Timely (P : Platform F) (o : Observed F nameLen) (s : IntcpSeg) : Prop :=
  getMillisec P o.node > s.ts → s.ts ≠ 0 ∧ (getMillisec P o.node - s.ts).toNat < 2 ^ 31 ∧
    ∀ r ∈ o.samples, 7 * r + (getMillisec P o.node - s.ts).toNat < 2 ^ 31

/-- What a sampled segment cannot do without: a time stamp, and at the first sample an age that
is not negative as an `int`. -/
def Stamped (P : Platform F) (o : Observed F nameLen) (s : IntcpSeg) : Prop :=
  getMillisec P o.node > s.ts → s.ts ≠ 0 ∧
    (o.samples = [] → (getMillisec P o.node - s.ts).toNat < 2 ^ 31)

instance (P : Platform F) (o : Observed F nameLen) (s : IntcpSeg) : Decidable (Timely P o s) :=
  inferInstanceAs (Decidable (_ → _))

/-- In terms of the estimate: a real time stamp, less than 2^31 ms old at the first sample, and
later `int` can hold the sum. -/
def Usable (P : Platform F) (o : Observed F nameLen) (s : IntcpSeg) : Prop :=
  getMillisec P o.node > s.ts → s.ts ≠ 0 ∧
    if o.node.cc.hopSrtt = 0 then (getMillisec P o.node - s.ts).toNat < 2 ^ 31
    else smoothing o.node.cc (getMillisec P o.node) s < 2 ^ 31

lemma smoothed_exact {S : Int32} :
    (if S / 8 < 1 then (1 : Int32) else S / 8).toInt = max 1 (S.toInt / 8) := by
  have hlow := S.le_toInt
  have hhigh := S.toInt_lt
  have height : (8 : Int32).toInt = 8 := rfl
  have hone : (1 : Int32).toInt = 1 := rfl
  have htrunc : S.toInt.tdiv 8 = S.toInt / 8 ∨ S.toInt < 0 ∧ S.toInt.tdiv 8 = S.toInt / 8 + 1 := by
    rw [Int.tdiv_eq_ediv]
    split
    · exact .inl (Int.add_zero _)
    · exact .inr ⟨by omega, rfl⟩
  have hdiv : (S / 8).toInt = S.toInt.tdiv 8 := by
    rw [Int32.toInt_div, height]
    apply Int.bmod_eq_of_le <;> omega
  simp only [Int32.lt_iff_toInt_lt, hdiv, hone]
  split
  · rw [hone]
    omega
  · rw [hdiv]
    omega

/-- Without an overflow, a smoothed estimate is the rounded mean, and at least 1. -/
lemma updateHopRTT_smoothed {cc : CongControl F} {current : UInt32} {s : IntcpSeg}
    (nonzero : cc.hopSrtt ≠ 0) (low : -2 ^ 31 ≤ smoothing cc current s)
    (high : smoothing cc current s < 2 ^ 31) :
    (updateHopRTT cc (current - s.ts).toInt32).hopSrtt.toInt =
      max 1 (smoothing cc current s / 8) := by
  have hseven : (7 : Int32).toInt = 7 := rfl
  have hsum : (7 * cc.hopSrtt + (current - s.ts).toInt32).toInt = smoothing cc current s := by
    rw [Int32.toInt_add, Int32.toInt_mul, hseven, Int.bmod_add_bmod]
    apply Int.bmod_eq_of_le <;> rw [smoothing] at * <;> omega
  simp only [updateHopRTT, if_neg nonzero, smoothed_exact, hsum]

/-- The age of a time stamp in the past, as `updateHopRTT` gets it. -/
lemma age_signed {current ts : UInt32} (past : current > ts) :
    0 < (current - ts).toNat ∧ (current - ts).toInt32.toInt =
      if (current - ts).toNat < 2 ^ 31 then ((current - ts).toNat : Int)
      else (current - ts).toNat - 2 ^ 32 := by
  have hsub := toNat_sub_of_le (UInt32.le_of_lt past)
  have hlt := UInt32.lt_iff_toNat_lt.mp past
  exact ⟨by omega, itimediff_eq current ts⟩

lemma zero_iff_toInt {x : Int32} : x = 0 ↔ x.toInt = 0 :=
  ⟨fun h => h ▸ rfl, fun h => Int32.toInt_inj.mp h⟩

lemma Bounded.same {o : Observed F nameLen} (bounded : Bounded o) {node : IntcpTransCB F nameLen}
    (same : node.cc.hopSrtt = o.node.cc.hopSrtt) : Bounded ⟨node, o.samples⟩ := by
  constructor
  · exact fun h => same ▸ bounded.start h
  · exact fun h => same ▸ bounded.low h
  · exact fun h => same ▸ bounded.high h

section Sampling

variable {o : Observed F nameLen} {current : UInt32} {s : IntcpSeg}

/-- A usable segment leaves the estimate between 1 and the largest sample. -/
lemma estimated_bounded (bounded : Bounded o)
    (usable : current > s.ts → s.ts ≠ 0 ∧
      if o.node.cc.hopSrtt = 0 then (current - s.ts).toNat < 2 ^ 31
      else smoothing o.node.cc current s < 2 ^ 31) {node : IntcpTransCB F nameLen}
    (same : node.cc.hopSrtt = (estimated o.node.cc current s).hopSrtt) :
    Bounded ⟨node, sampleOf current s ++ o.samples⟩ := by
  by_cases past : current > s.ts
  · obtain ⟨hreal, hsize⟩ := usable past
    obtain ⟨hpos, hage⟩ := age_signed past
    have hsamples : sampleOf current s ++ o.samples = (current - s.ts).toNat :: o.samples := by
      rw [sampleOf, if_pos ⟨hreal, past⟩, List.singleton_append]
    rw [hsamples]
    rw [estimated, if_pos past] at same
    by_cases hzero : o.node.cc.hopSrtt = 0
    · -- the first sample is the estimate
      rw [if_pos hzero] at hsize
      rw [if_pos hsize] at hage
      have hfirst : node.cc.hopSrtt.toInt = (current - s.ts).toNat := by
        rw [same, updateHopRTT, if_pos hzero]
        exact hage
      refine ⟨nofun, fun _ => ?_, fun _ => ⟨_, List.mem_cons_self, Int.le_of_eq hfirst⟩⟩
      simp only
      omega
    · have hsome : o.samples ≠ [] := fun h => hzero (zero_iff_toInt.mpr (bounded.start h))
      have hlow := bounded.low hsome
      obtain ⟨r, hr, hle⟩ := bounded.high hsome
      have hsigned := (current - s.ts).toInt32.le_toInt
      rw [if_neg hzero] at hsize
      have hmean := updateHopRTT_smoothed hzero (by rw [smoothing]; omega) hsize
      rw [← same, smoothing] at hmean
      refine ⟨nofun, fun _ => ?_, fun _ => ?_⟩
      · simp only
        omega
      · -- the mean is no larger than the larger of the two
        by_cases hlarger : (r : Int) ≤ (current - s.ts).toNat
        · exact ⟨_, List.mem_cons_self, by split at hage <;> simp only <;> omega⟩
        · exact ⟨r, List.mem_cons_of_mem _ hr, by split at hage <;> simp only <;> omega⟩
  · have hsamples : sampleOf current s ++ o.samples = o.samples := by
      rw [sampleOf, if_neg fun h => past h.2, List.nil_append]
    rw [estimated, if_neg past] at same
    rw [hsamples]
    exact bounded.same same

/-- An estimate that is not negative keeps the divisor from being 0. -/
lemma divisor_ne_zero {cc : CongControl F} (pos : 0 ≤ cc.hopSrtt.toInt) (current : UInt32) :
    divisor cc current ≠ some 0 := by
  simp only [divisor]
  split
  · nofun
  · generalize (if cc.lastThrpUpdateTs = 0 then current else cc.lastThrpUpdateTs) = since
    split
    · rename_i hdue
      intro hsame
      rw [itimediff, Option.some.inj hsame] at hdue
      have hnull : (0 : UInt32).toInt32.toInt = 0 := rfl
      omega
    · nofun

end Sampling

lemma slowStart_hopSrtt (cc : CongControl F) (signal : Bool) :
    (slowStart P cc signal).hopSrtt = cc.hopSrtt := by
  rw [slowStart]
  split <;> rfl

lemma congAvoid_hopSrtt (cc : CongControl F) (current : UInt32) (signal : Bool) (least : Int32) :
    (congAvoid P cc current signal least).hopSrtt = cc.hopSrtt := by
  simp only [congAvoid]
  split
  · rfl
  · split
    · rfl
    · split <;> rfl

lemma updateCwnd_hopSrtt (cb : IntcpTransCB F nameLen) (dataLen : UInt32) :
    (updateCwnd P cb dataLen).cc.hopSrtt = cb.cc.hopSrtt := by
  have hstart : ∀ (cc : CongControl F) signal,
      (if cc.ccState = .slowStart then slowStart P cc signal else cc).hopSrtt = cc.hopSrtt := by
    intro cc signal
    rw [apply_ite CongControl.hopSrtt, slowStart_hopSrtt, ite_self]
  have hlater : ∀ (cc : CongControl F) current signal least,
      (if cc.ccState = .congAvoid ∧ allow_cwnd_decrease cc current then
        congAvoid P cc current signal least else cc).hopSrtt = cc.hopSrtt := by
    intro cc current signal least
    rw [apply_ite CongControl.hopSrtt, congAvoid_hopSrtt, ite_self]
  exact (hlater _ _ _ _).trans (hstart _ _)

lemma measureThroughput_hopSrtt (cc : CongControl F) (current len : UInt32) :
    (measureThroughput P cc current len).hopSrtt = cc.hopSrtt := by
  simp only [measureThroughput]
  split
  · rfl
  · generalize (if cc.lastThrpUpdateTs = 0 then current else cc.lastThrpUpdateTs) = since
    split <;> rfl

/-- Traffic of which nothing is measured. -/
def unmeasured : Traffic := ⟨fun _ => False, fun _ => True⟩

/-- Only a measurement writes the estimate. -/
lemma moves_hopSrtt {cb cb' : IntcpTransCB F nameLen} (moves : Moves P unmeasured cb cb') :
    cb'.cc.hopSrtt = cb.cc.hopSrtt := by
  refine moves.keep (fun c => c.cc.hopSrtt = cb.cc.hopSrtt) ?_ rfl
  intro c c' h move
  cases move with
  | idle same => rw [same.cc, h]
  | measure _ _ measured => exact measured.elim
  | window dataLen => rw [updateCwnd_hopSrtt, h]
  | deliver maxBufSize =>
    have hsame : (recv c maxBufSize).2.cc = c.cc := by
      rw [recv]
      split
      · rfl
      · split
        · split
          · rfl
          · split <;> rfl
        · rfl
    rw [hsame, h]
  | _ => exact h

lemma parseData_hopSrtt (cb : IntcpTransCB F nameLen) (seg : IntcpSeg) (header : Bool) :
    (parseData cb seg header).cc.hopSrtt = cb.cc.hopSrtt := by
  simp only [parseData]
  split <;> split <;> rfl

/-- What is behind the measurement in a round leaves it alone. -/
lemma inputPush_hopSrtt (cb : IntcpTransCB F nameLen) (current : UInt32) (s : IntcpSeg) :
    (inputPush P cb current s).2.cc.hopSrtt = (estimated cb.cc current s).hopSrtt := by
  have hsampled : (sampleHop P (takeWnd cb s) current s).cc.hopSrtt =
      (estimated cb.cc current s).hopSrtt := by
    have hflow : (takeWnd cb s).cc = cb.cc := by
      rw [takeWnd]
      split <;> rfl
    simp only [sampleHop, measureThroughput_hopSrtt, hflow, estimated]
  have hmoves : Moves P unmeasured (sampleHop P (takeWnd cb s) current s)
      (detect P (measureHop P cb current s) s) := by
    apply moves_detect
    rw [measureHop, announceRate]
    split
    · exact moves_outputInt (.single (.window _ s.len)) 0 0
    · exact .single (.window _ s.len)
  rw [← hsampled, ← moves_hopSrtt hmoves]
  simp only [inputPush]
  split
  · exact parseData_hopSrtt _ _ _
  · split
    · rfl
    · exact parseData_hopSrtt _ _ _

lemma handle_hopSrtt (cb : IntcpTransCB F nameLen) (s : IntcpSeg) :
    (handle P cb s).2.cc.hopSrtt = if s.cmd = intcpCmdInt then cb.cc.hopSrtt
      else (estimated cb.cc (getMillisec P cb) s).hopSrtt := by
  rw [handle]
  split
  · exact moves_hopSrtt (moves_inputInt (moves_tick .refl) s)
  · exact inputPush_hopSrtt _ _ s

/-- The operations other than `input` leave the estimate alone. -/
lemma step_hopSrtt {op : Op nameLen} {cb cb' : IntcpTransCB F nameLen}
    (silent : ∀ data, op ≠ .input data) (step : op.step P cb = some cb') :
    cb'.cc.hopSrtt = cb.cc.hopSrtt := by
  have hbrings : (∀ seg header, op ≠ .parseData seg header) → OpBrings P unmeasured op := by
    intro hother
    cases op with
    | input data => exact absurd rfl (silent data)
    | parseData seg header => exact absurd rfl (hother seg header)
    | _ => trivial
  by_cases hparse : ∃ seg header, op = .parseData seg header
  · obtain ⟨seg, header, rfl⟩ := hparse
    rw [Op.step] at step
    split at step
    · cases step
      rfl
    · cases step
      exact parseData_hopSrtt cb seg header
  · have hother : ∀ seg header, op ≠ .parseData seg header :=
      fun seg header h => hparse ⟨seg, header, h⟩
    rcases step_cases (hbrings hother) step with ⟨ready, ts, next, _, moves, rfl⟩ | ⟨_, moves⟩
    · obtain ⟨_, _, _, _, _, _, hframe⟩ := flushData_frame (P := P) ready
      have hready := moves_hopSrtt moves
      rw [hframe]
      exact hready
    · exact moves_hopSrtt moves

/-- For a data segment that comes while the estimate is bounded. -/
lemma sane_iff {o : Observed F nameLen} (bounded : Bounded o) {s : IntcpSeg}
    (push : s.cmd ≠ intcpCmdInt) : Sane P o s ↔ Usable P o s := by
  have hnode := handle_hopSrtt (P := P) o.node s
  rw [if_neg push] at hnode
  have hobserved : observeSeg P o s =
      ⟨(handle P o.node s).2, sampleOf (getMillisec P o.node) s ++ o.samples⟩ := by
    rw [observeSeg, if_neg push]
  constructor
  · intro sane past
    have hreal : s.ts ≠ 0 := fun h => sane.placeholder h past
    refine ⟨hreal, ?_⟩
    split
    · -- the first sample is the estimate itself, and its sign shows
      rename_i hzero
      obtain ⟨hpos, hage⟩ := age_signed past
      have hlow := sane.bounded.low
      rw [hobserved, sampleOf, if_pos ⟨hreal, past⟩] at hlow
      have hestimate := hlow nofun
      rw [hnode, estimated, if_pos past, updateHopRTT, if_pos hzero] at hestimate
      simp only at hestimate
      have hlt := (getMillisec P o.node - s.ts).toNat_lt
      split at hage <;> omega
    · rename_i hzero
      exact (sane.fits past hzero).2
  · intro usable
    have hafter : Bounded (observeSeg P o s) := hobserved ▸ estimated_bounded bounded usable hnode
    refine ⟨fun h past => (usable past).1 h, fun past hzero => ?_, hafter, ?_⟩
    · have hsome : o.samples ≠ [] := fun h => hzero (zero_iff_toInt.mpr (bounded.start h))
      have hlow := bounded.low hsome
      have hsigned := (getMillisec P o.node - s.ts).toInt32.le_toInt
      have hsize := (usable past).2
      rw [if_neg hzero] at hsize
      exact ⟨by rw [smoothing]; omega, hsize⟩
    · apply divisor_ne_zero
      rw [← hnode]
      by_cases hsome : (observeSeg P o s).samples = []
      · exact Int.le_of_eq (hafter.start hsome).symm
      · exact Int.le_of_lt (hafter.low hsome)

/-- No estimate is larger than some age sampled before. -/
lemma Timely.usable {o : Observed F nameLen} (bounded : Bounded o) {s : IntcpSeg}
    (timely : Timely P o s) : Usable P o s := by
  intro past
  obtain ⟨hreal, hage, hroom⟩ := timely past
  refine ⟨hreal, ?_⟩
  split
  · exact hage
  · rename_i hzero
    have hsome : o.samples ≠ [] := fun h => hzero (zero_iff_toInt.mpr (bounded.start h))
    obtain ⟨r, hr, hle⟩ := bounded.high hsome
    have hsum := hroom r hr
    have hsigned := (age_signed past).2
    rw [if_pos hage] at hsigned
    rw [smoothing]
    omega

lemma Usable.stamped {o : Observed F nameLen} (bounded : Bounded o) {s : IntcpSeg}
    (usable : Usable P o s) : Stamped P o s := by
  intro past
  obtain ⟨hreal, hsize⟩ := usable past
  refine ⟨hreal, fun hnone => ?_⟩
  rwa [if_pos (zero_iff_toInt.mpr (bounded.start hnone))] at hsize

lemma observeSeg_bounded {o : Observed F nameLen} {s : IntcpSeg} (bounded : Bounded o)
    (usable : s.cmd ≠ intcpCmdInt → Usable P o s) : Bounded (observeSeg P o s) := by
  by_cases push : s.cmd = intcpCmdInt
  · have hnode := handle_hopSrtt (P := P) o.node s
    rw [if_pos push] at hnode
    rw [observeSeg, if_pos push]
    exact bounded.same hnode
  · exact ((sane_iff bounded push).mpr (usable push)).bounded

lemma segStep_bounded {o o' : Observed F nameLen} {s : IntcpSeg} (bounded : Bounded o)
    (usable : s.cmd ≠ intcpCmdInt → Usable P o s) (step : segStep P s o = some o') :
    Bounded o' := by
  rw [segStep] at step
  split at step
  · cases step
    exact observeSeg_bounded bounded usable
  · cases step

/-- Over a datagram, from a bounded estimate. -/
lemma along_sane_iff {o : Observed F nameLen} (bounded : Bounded o) (segs : List IntcpSeg) :
    Along (segStep P) (fun o s => s.cmd ≠ intcpCmdInt → Sane P o s) o segs ↔
      Along (segStep P) (fun o s => s.cmd ≠ intcpCmdInt → Usable P o s) o segs := by
  have same : ∀ (o : Observed F nameLen) s, Bounded o → True →
      ((s.cmd ≠ intcpCmdInt → Sane P o s) ↔ (s.cmd ≠ intcpCmdInt → Usable P o s)) :=
    fun o s h _ => forall_congr' fun push => sane_iff h push
  refine along_congr Bounded same ?_ bounded fun _ _ => trivial
  intro o o' s h given sane step
  exact segStep_bounded h ((same o s h given).mp sane) step

/-- Over a datagram, what makes a segment usable. -/
lemma along_usable_of_timely {o : Observed F nameLen} (bounded : Bounded o) {segs : List IntcpSeg}
    (timely : Along (segStep P) (fun o s => s.cmd ≠ intcpCmdInt → Timely P o s) o segs) :
    Along (segStep P) (fun o s => s.cmd ≠ intcpCmdInt → Usable P o s) o segs :=
  along_imp Bounded (fun _ _ h timely push => (timely push).usable h)
    (fun _ _ _ h timely => segStep_bounded h fun push => (timely push).usable h) bounded timely

lemma along_stamped_of_usable {o : Observed F nameLen} (bounded : Bounded o)
    {segs : List IntcpSeg}
    (usable : Along (segStep P) (fun o s => s.cmd ≠ intcpCmdInt → Usable P o s) o segs) :
    Along (segStep P) (fun o s => s.cmd ≠ intcpCmdInt → Stamped P o s) o segs :=
  along_imp Bounded (fun _ _ h usable push => (usable push).stamped h)
    (fun _ _ _ h usable => segStep_bounded h usable) bounded usable

lemma observeAll_bounded {o : Observed F nameLen} (bounded : Bounded o) {segs : List IntcpSeg}
    (usable : Along (segStep P) (fun o s => s.cmd ≠ intcpCmdInt → Usable P o s) o segs) :
    Bounded (observeAll P o segs) := by
  induction segs generalizing o with
  | nil => exact bounded
  | cons s rest ih =>
    have hnow := observeSeg_bounded bounded usable.1
    rw [observeAll]
    split
    · rename_i hgo
      exact ih hnow (usable.2 _ (if_pos hgo))
    · exact hnow

lemma observeAll_node (o : Observed F nameLen) (segs : List IntcpSeg) :
    (observeAll P o segs).node = (handleAll P o.node segs).2 := by
  induction segs generalizing o with
  | nil => rfl
  | cons s rest ih =>
    simp only [observeAll, handleAll]
    split
    · exact ih (observeSeg P o s)
    · rfl

/-- The estimate is sane at every data segment, and in the state after the operation. -/
def SaneOp (P : Platform F) (o : Observed F nameLen) (op : Op nameLen) : Prop :=
  AtPush P (Sane P) o op ∧ ∀ o', observeOp P op o = some o' → Bounded o'

lemma observeOp_bounded {o o' : Observed F nameLen} {op : Op nameLen} (bounded : Bounded o)
    (usable : AtPush P (Usable P) o op) (step : observeOp P op o = some o') : Bounded o' := by
  obtain ⟨node, hstep, rfl⟩ := Option.map_eq_some_iff.mp step
  by_cases hdead : o.node.state = -1
  · rw [Op.step, if_pos hdead] at hstep
    cases hstep
    have hnone : samplesAfter P op o = o.samples := if_pos hdead
    exact hnone ▸ bounded
  · by_cases hinput : ∃ data, op = .input data
    · obtain ⟨data, rfl⟩ := hinput
      rw [Op.step, if_neg hdead] at hstep
      cases hstep
      have hsome : samplesAfter P (.input data) o = (observeAll P o (decode P.raw data).2).samples :=
        if_neg hdead
      obtain ⟨n, hnode⟩ := input_handleAll (P := P) o.node data
      rw [hsome]
      apply (observeAll_bounded bounded (usable data rfl hdead)).same
      rw [hnode, observeAll_node]
    · have hother : ∀ data, op ≠ .input data := fun data h => hinput ⟨data, h⟩
      have hnone : samplesAfter P op o = o.samples := by
        unfold samplesAfter
        rw [if_neg hdead]
        cases op with
        | input data => exact absurd rfl (hother data)
        | _ => rfl
      rw [hnone]
      exact bounded.same (step_hopSrtt hother hstep)

lemma create_bounded (role : Role) (nameChars : Vector UInt8 nameLen) (cache : Cache nameLen) :
    Bounded (⟨.create P role nameChars cache, []⟩ : Observed F nameLen) :=
  ⟨fun _ => rfl, fun h => absurd rfl h, fun h => absurd rfl h⟩

/-- The estimate is sane along a run if and only if every data segment is usable when its turn
comes. -/
lemma along_saneOp_iff {o : Observed F nameLen} (bounded : Bounded o) (ops : List (Op nameLen)) :
    Along (observeOp P) (SaneOp P) o ops ↔ Along (observeOp P) (AtPush P (Usable P)) o ops := by
  have same : ∀ (o : Observed F nameLen) op, Bounded o → True →
      (SaneOp P o op ↔ AtPush P (Usable P) o op) := by
    intro o op bounded _
    have hpush : AtPush P (Sane P) o op ↔ AtPush P (Usable P) o op :=
      forall_congr' fun data => forall_congr' fun _ => forall_congr' fun _ =>
        along_sane_iff bounded _
    rw [SaneOp, hpush]
    exact ⟨And.left, fun usable => ⟨usable, fun _ => observeOp_bounded bounded usable⟩⟩
  refine along_congr Bounded same ?_ bounded fun _ _ => trivial
  intro o o' op bounded _ sane step
  exact sane.2 o' step

lemma AtPush.usable {o : Observed F nameLen} {op : Op nameLen} (bounded : Bounded o)
    (timely : AtPush P (Timely P) o op) : AtPush P (Usable P) o op :=
  fun data hop alive => along_usable_of_timely bounded (timely data hop alive)

/-- The estimate is sane along a run whose data segments are timely, each when its turn comes;
and it is not where one of them is sampled without a time stamp or with a first age of 2^31 ms
and more. -/
theorem run_sane (P : Platform F) (role : Role) (nameChars : Vector UInt8 nameLen)
    (cache : Cache nameLen) (ops : List (Op nameLen)) :
    (Along (observeOp P) (AtPush P (Timely P)) ⟨.create P role nameChars cache, []⟩ ops →
      Along (observeOp P) (SaneOp P) ⟨.create P role nameChars cache, []⟩ ops) ∧
    (Along (observeOp P) (SaneOp P) ⟨.create P role nameChars cache, []⟩ ops →
      Along (observeOp P) (AtPush P (Stamped P)) ⟨.create P role nameChars cache, []⟩ ops) := by
  have start : Bounded (⟨.create P role nameChars cache, []⟩ : Observed F nameLen) :=
    create_bounded role nameChars cache
  rw [along_saneOp_iff start]
  constructor
  · intro timely
    exact along_imp Bounded (fun _ _ h timely => timely.usable h)
      (fun _ _ _ h timely => observeOp_bounded h (timely.usable h)) start timely
  · intro usable
    exact along_imp Bounded
      (fun _ _ h usable data hop alive => along_stamped_of_usable h (usable data hop alive))
      (fun _ _ _ h usable => observeOp_bounded h usable) start usable

/-- The byte at `o`, sent at `ts`. -/
def stampedByte (o ts : UInt32) : IntcpSeg := { pushSeg freeClock o (o + 1) 1 [7] rfl with ts }

/-- Two bytes with time stamps, each sampled a few milliseconds later. -/
theorem stamped_bytes_sane :
    Along (observeOp freeClock) (SaneOp freeClock)
      ⟨.create freeClock .midnode #v[110] (Cache.fresh fun _ _ => 0), []⟩
      [.input (frame (stampedByte 0 1)), .input (frame (stampedByte 1 2))] := by
  apply (run_sane freeClock .midnode #v[110] (Cache.fresh fun _ _ => 0) _).1
  have hfirst : (decode freeClock.raw (frame (stampedByte 0 1))).2 = [stampedByte 0 1] := by
    decide +kernel
  have hsecond : (decode freeClock.raw (frame (stampedByte 1 2))).2 = [stampedByte 1 2] := by
    decide +kernel
  refine ⟨?_, fun o hfirstStep => ⟨?_, fun _ _ => trivial⟩⟩
  · rintro _ ⟨⟩ _
    rw [hfirst]
    exact ⟨fun _ => by decide +kernel, fun _ _ => trivial⟩
  · rintro _ ⟨⟩ _
    rw [hsecond]
    refine ⟨fun _ => ?_, fun _ _ => trivial⟩
    rw [← Option.some.inj hfirstStep]
    decide +kernel

/-- A data header with the placeholder, as `sendDataHeader` queues it, is sampled at the first
reading of the clock. -/
theorem placeholder_sampled :
    ¬ Along (observeOp freeClock) (SaneOp freeClock)
      ⟨.create freeClock .midnode #v[110] (Cache.fresh fun _ _ => 0), []⟩
      [.input (frame (pushSeg freeClock 0 100 0 [] length_header))] := by
  rintro ⟨⟨atPush, _⟩, _⟩
  have hpushes := atPush _ rfl (by decide)
  have hdecoded : (decode freeClock.raw (frame (pushSeg freeClock 0 100 0 [] length_header))).2 =
      [pushSeg freeClock 0 100 0 [] length_header] := by decide +kernel
  rw [hdecoded] at hpushes
  have hsane := hpushes.1 (by decide)
  exact hsane.placeholder rfl (by decide)

end HopRtt
