import Intcp.ExactFloats
import Intcp.HrttHistory
import Intcp.InterestFifo
import Mathlib.Data.Rat.Floor

/-!
# The announced rate

`getDataSendRate` divides by the least sample of `hrttQueue`, and outside the
requester by `hopSrtt`, once `hopSrtt` is not 0. A sample that was taken while it
was 0 is a divisor as long as it stays in the queue.
-/

namespace SendRate

open StepRuns Words BlockCache TransControl SegmentCodec RateControl DataPlane InterestPlane
open NodeCore
  CallRules InputLoop HopRtt HrttHistory ExactFloats InterestFifo

universe u
variable {F : Type u} {nameLen : Nat} {P : Platform F}

/-- What `getDataSendRate` divides by. -/
def divisors (cb : IntcpTransCB F nameLen) : List Int :=
  if cb.cc.hopSrtt = 0 then []
  else (minHrtt 999999 cb.cc.hrttQueue).toInt ::
    if cb.nodeRole ≠ .requester then [cb.cc.hopSrtt.toInt] else []

/-- Between 100 times `INTCP_SENDRATE_MIN` and 100 times `INTCP_SENDRATE_MAX`. -/
def InRate (wnd : Int16) : Prop := 10 ≤ wnd.toInt ∧ wnd.toInt ≤ 30000

/-- The interests sent so far announce a rate in range. -/
def SentInRate (P : Platform F) (cb : IntcpTransCB F nameLen) : Prop :=
  ∀ data ∈ cb.history.toResponder, ∀ seg ∈ (decode P.raw data).2, InRate seg.wnd

/-- The rate is defined and in range, also in the interests sent so far. -/
structure Announces (P : Platform F) (cb : IntcpTransCB F nameLen) : Prop where
  divides : ∀ d ∈ divisors cb, 0 < d
  rate : InRate (getDataSendRate P cb)
  sent : SentInRate P cb

section Exact

variable {K : Type u} [Field K] [LinearOrder K] [IsStrictOrderedRing K] [FloorRing K]
  (machine : Machine K)

lemma inRate_exactly {x : K} (low : 1 / 10 ≤ x) :
    InRate ((exactly machine).toInt16 (fmul (exactly machine)
      (fmin (exactly machine) x (sendrateMax (exactly machine))) (fofInt (exactly machine) 100))) := by
  have hvalue : fmul (exactly machine) (fmin (exactly machine) x (sendrateMax (exactly machine)))
      (fofInt (exactly machine) 100) = min x 300 * 100 := by
    rw [fmin_exactly, sendrateMax_exactly, fofInt_exactly]
    simp [fmul, exactly]
  have hlow : ((10 : Int) : K) ≤ min x 300 * 100 := by
    have : (1 / 10 : K) ≤ min x 300 := le_min low (by norm_num)
    push_cast
    linarith
  have hhigh : min x 300 * 100 < ((30001 : Int) : K) := by
    have : min x 300 ≤ (300 : K) := min_le_right _ _
    push_cast
    linarith
  have hfloor : truncate (min x 300 * 100) = ⌊min x 300 * 100⌋ := by
    apply if_pos
    exact le_trans (by norm_num) hlow
  have hten := Int.le_floor.mpr hlow
  have hmost := Int.floor_lt.mpr hhigh
  rw [hvalue]
  have hword : ((exactly machine).toInt16 (min x 300 * 100)).toInt = ⌊min x 300 * 100⌋ := by
    have hof : (exactly machine).toInt16 (min x 300 * 100) = Int16.ofInt ⌊min x 300 * 100⌋ := by
      rw [← hfloor]
      rfl
    rw [hof, Int16.toInt_ofInt]
    apply Int.bmod_eq_of_le <;> simp only [Int16.size] <;> omega
  rw [InRate, hword]
  omega

/-- The clamps hold whatever the quotients are. -/
lemma getDataSendRate_inRate (cb : IntcpTransCB K nameLen) :
    InRate (getDataSendRate (exactly machine) cb) := by
  rw [getDataSendRate]
  apply inRate_exactly
  split
  · rw [sendrateMin_exactly]
  · simp only [fmax_exactly, sendrateMin_exactly]
    exact le_max_right _ _

lemma interest_inRate {data : List UInt8} (interest : IsInterest (exactly machine) nameLen data) :
    ∀ seg ∈ (decode (exactly machine).raw data).2, InRate seg.wnd := by
  obtain ⟨cb, s, e, rfl⟩ := interest
  intro seg hseg
  rw [intDatagram, decode_intSeg] at hseg
  rw [List.mem_singleton.mp hseg]
  exact getDataSendRate_inRate machine _

lemma sentInRate_append {cb cb' : IntcpTransCB K nameLen} (sent : SentInRate (exactly machine) cb)
    (more : ∃ more, cb'.history.toResponder = cb.history.toResponder ++ more ∧
      ∀ data ∈ more, IsInterest (exactly machine) nameLen data) :
    SentInRate (exactly machine) cb' := by
  obtain ⟨more, hsent, hinterests⟩ := more
  intro data hdata
  rw [hsent] at hdata
  rcases List.mem_append.mp hdata with hdata | hdata
  · exact sent data hdata
  · exact interest_inRate machine (hinterests data hdata)

end Exact

lemma minHrtt_pos_iff (start : Int32) (queue : List (UInt32 × Int32)) :
    0 < (minHrtt start queue).toInt ↔ 0 < start.toInt ∧ ∀ pr ∈ queue, 0 < pr.2.toInt := by
  induction queue generalizing start with
  | nil => simp [minHrtt]
  | cons pr rest ih =>
    have hcons : minHrtt start (pr :: rest) = minHrtt (if pr.2 < start then pr.2 else start) rest :=
      rfl
    rw [hcons, ih, List.forall_mem_cons]
    split
    · rename_i hless
      rw [Int32.lt_iff_toInt_lt] at hless
      constructor
      · exact fun ⟨hpr, hrest⟩ => ⟨by omega, hpr, hrest⟩
      · exact fun ⟨_, hpr, hrest⟩ => ⟨hpr, hrest⟩
    · rename_i hmore
      rw [Int32.lt_iff_toInt_lt] at hmore
      constructor
      · exact fun ⟨hstart, hrest⟩ => ⟨hstart, by omega, hrest⟩
      · exact fun ⟨hstart, _, hrest⟩ => ⟨hstart, hrest⟩

/-- Where the divisors are positive, in terms of the samples. -/
lemma divisors_pos_iff {cb : IntcpTransCB F nameLen} (measured : cb.cc.hopSrtt ≠ 0) :
    (∀ d ∈ divisors cb, 0 < d) ↔ (∀ pr ∈ cb.cc.hrttQueue, 0 < pr.2.toInt) ∧
      (cb.nodeRole ≠ .requester → 0 < cb.cc.hopSrtt.toInt) := by
  have hleast := minHrtt_pos_iff 999999 cb.cc.hrttQueue
  have hstart : 0 < (999999 : Int32).toInt := by decide
  rw [divisors, if_neg measured, List.forall_mem_cons, hleast]
  refine and_congr ⟨And.right, fun h => ⟨hstart, h⟩⟩ ?_
  split
  · rename_i hrole
    simp [hrole]
  · rename_i hrole
    simp [hrole]

/-- What the queue and the estimate have to do with each other. -/
structure History (cb : IntcpTransCB F nameLen) : Prop where
  unknown : cb.cc.hopSrtt = 0 → ∀ pr ∈ cb.cc.hrttQueue, pr.2 = 0
  known : cb.cc.hopSrtt ≠ 0 → ∀ pr ∈ cb.cc.hrttQueue, 0 < pr.2.toInt
  negative : cb.cc.hopSrtt.toInt < 0 → cb.cc.hrttQueue = [] ∧ cb.nodeRole = .requester

lemma History.divides {cb : IntcpTransCB F nameLen} (history : History cb) :
    ∀ d ∈ divisors cb, 0 < d := by
  by_cases hzero : cb.cc.hopSrtt = 0
  · simp [divisors, hzero]
  · refine (divisors_pos_iff hzero).mpr ⟨history.known hzero, fun hrole => ?_⟩
    have hnonneg : ¬ cb.cc.hopSrtt.toInt < 0 := fun h => hrole (history.negative h).2
    have hne := zero_iff_toInt.not.mp hzero
    omega

/-- A data segment with the first sample of the hop RTT comes when the samples taken before are
out of the window, and no negative estimate is put into the queue or divided by. -/
structure Timely (P : Platform F) (cb : IntcpTransCB F nameLen) (s : IntcpSeg) : Prop where
  first : cb.cc.hopSrtt = 0 → getMillisec P cb > s.ts → recentHrtt P cb = []
  signed : (hopSrttAt P cb s).toInt < 0 → cb.nodeRole = .requester ∧
    P.clock (cb.reads + 1) ≤ lastSampled P cb + (hopSrttAt P cb s / 2).toUInt32

/-- The estimate that a data segment leaves. -/
lemma hopSrttAt_cases (cb : IntcpTransCB F nameLen) (s : IntcpSeg) :
    if getMillisec P cb > s.ts then
      (hopSrttAt P cb s).toInt ≠ 0 ∧ (cb.cc.hopSrtt ≠ 0 → 0 < (hopSrttAt P cb s).toInt)
    else hopSrttAt P cb s = cb.cc.hopSrtt := by
  split
  · rename_i past
    obtain ⟨hpos, hage⟩ := age_signed past
    have hlt := (getMillisec P cb - s.ts).toNat_lt
    rw [hopSrttAt, estimated, if_pos past, updateHopRTT]
    split
    · rename_i hzero
      refine ⟨?_, fun h => absurd hzero h⟩
      simp only
      split at hage <;> omega
    · simp only [smoothed_exact]
      omega
  · rename_i present
    rw [hopSrttAt, estimated, if_neg present]

section Push

variable {cb : IntcpTransCB F nameLen} {s : IntcpSeg} (push : s.cmd ≠ intcpCmdInt)
  (history : History cb)

include history in
/-- Samples still in the window are positive when there is an estimate. -/
lemma recent_pos (first : cb.cc.hopSrtt = 0 → getMillisec P cb > s.ts → recentHrtt P cb = [])
    (known : hopSrttAt P cb s ≠ 0) : ∀ pr ∈ recentHrtt P cb, 0 < pr.2.toInt := by
  have hcases := hopSrttAt_cases (P := P) cb s
  intro pr hpr
  by_cases hzero : cb.cc.hopSrtt = 0
  · by_cases past : getMillisec P cb > s.ts
    · rw [first hzero past] at hpr
      cases hpr
    · rw [if_neg past] at hcases
      exact absurd (hcases.trans hzero) known
  · exact history.known hzero pr (mem_of_mem_recentHrtt hpr)

include push

/-- The queue behind a data segment, with the new sample when one is due. -/
lemma forall_mem_samples {Q : UInt32 × Int32 → Prop} :
    (∀ pr ∈ (handle P cb s).2.cc.hrttQueue, Q pr) ↔ (∀ pr ∈ recentHrtt P cb, Q pr) ∧
      (P.clock (cb.reads + 1) > lastSampled P cb + (hopSrttAt P cb s / 2).toUInt32 →
        Q (P.clock (cb.reads + 1), hopSrttAt P cb s)) := by
  obtain ⟨_, _, hqueue⟩ := handle_push (P := P) cb push
  rw [hqueue]
  split
  · rename_i due
    simp only [List.forall_mem_append, List.forall_mem_singleton, due, true_implies]
  · rename_i notDue
    simp only [notDue, false_implies, and_true]

include history

lemma timely_history (timely : Timely P cb s) : History (handle P cb s).2 := by
  obtain ⟨hrole, hestimate, hqueue⟩ := handle_push (P := P) cb push
  have hcases := hopSrttAt_cases (P := P) cb s
  constructor <;> rw [hestimate] <;> intro hvalue
  · -- no estimate, so none before
    have present : ¬ getMillisec P cb > s.ts := by
      intro past
      rw [if_pos past] at hcases
      exact hcases.1 (zero_iff_toInt.mp hvalue)
    rw [if_neg present] at hcases
    have hunknown := history.unknown (hcases ▸ hvalue)
    exact (forall_mem_samples push).mpr
      ⟨fun pr hpr => hunknown pr (mem_of_mem_recentHrtt hpr), fun _ => hvalue⟩
  · refine (forall_mem_samples push).mpr ⟨recent_pos history timely.first hvalue, fun due => ?_⟩
    have hnonneg : ¬ (hopSrttAt P cb s).toInt < 0 :=
      fun h => absurd due (UInt32.not_lt.mpr (timely.signed h).2)
    have hne := zero_iff_toInt.not.mp hvalue
    simp only
    omega
  · obtain ⟨hreq, hnot⟩ := timely.signed hvalue
    have hnone : recentHrtt P cb = [] := by
      by_cases hzero : cb.cc.hopSrtt = 0
      · refine timely.first hzero ?_
        by_contra present
        rw [if_neg present, hzero] at hcases
        rw [hcases] at hvalue
        exact absurd hvalue (by decide)
      · have present : ¬ getMillisec P cb > s.ts := by
          intro past
          rw [if_pos past] at hcases
          have := hcases.2 hzero
          omega
        rw [if_neg present] at hcases
        rw [hcases] at hvalue
        rw [recentHrtt, (history.negative hvalue).1, List.dropWhile_nil]
    rw [hqueue, if_neg (UInt32.not_lt.mpr hnot)]
    exact ⟨hnone, hrole.trans hreq⟩

lemma divides_timely (divides : ∀ d ∈ divisors (handle P cb s).2, 0 < d) : Timely P cb s := by
  obtain ⟨hrole, hestimate, _⟩ := handle_push (P := P) cb push
  have hcases := hopSrttAt_cases (P := P) cb s
  constructor
  · intro hzero past
    rw [if_pos past] at hcases
    have hsome : (handle P cb s).2.cc.hopSrtt ≠ 0 := by
      rw [hestimate]
      exact zero_iff_toInt.not.mpr hcases.1
    have hpos := (forall_mem_samples push).mp ((divisors_pos_iff hsome).mp divides).1
    refine List.eq_nil_iff_forall_not_mem.mpr fun pr hpr => ?_
    have hnull := history.unknown hzero pr (mem_of_mem_recentHrtt hpr)
    have hone := hpos.1 pr hpr
    rw [hnull] at hone
    exact absurd hone (by decide)
  · intro hnegative
    have hsome : (handle P cb s).2.cc.hopSrtt ≠ 0 := by
      rw [hestimate]
      intro hzero
      rw [hzero] at hnegative
      exact absurd hnegative (by decide)
    obtain ⟨hpos, hdivide⟩ := (divisors_pos_iff hsome).mp divides
    rw [hrole, hestimate] at hdivide
    constructor
    · by_contra hother
      have := hdivide hother
      omega
    · by_contra due
      rw [UInt32.not_le] at due
      have hsampled := ((forall_mem_samples push).mp hpos).2 due
      simp only at hsampled
      omega

end Push

lemma History.quiet {cb cb' : IntcpTransCB F nameLen} (history : History cb)
    (unmeasured : Unmeasured P cb cb') : History cb' := by
  constructor <;> rw [unmeasured.hopSrtt, unmeasured.hrttQueue]
  · exact history.unknown
  · exact history.known
  · rw [unmeasured.role]
    exact history.negative

/-- What an operation leaves, behind every data segment and at its end. -/
def AnnouncesAfter (P : Platform F) (cb : IntcpTransCB F nameLen) (op : Op nameLen) : Prop :=
  AtData P (fun cb s => Announces P (handle P cb s).2) cb op ∧
    ∀ cb', op.step P cb = some cb' → Announces P cb'

section Exact

variable {K : Type u} [Field K] [LinearOrder K] [IsStrictOrderedRing K] [FloorRing K]
  (machine : Machine K)

/-- What carries the rate through a run. -/
def Informed (cb : IntcpTransCB K nameLen) : Prop := History cb ∧ SentInRate (exactly machine) cb

variable {machine} {cb cb' : IntcpTransCB K nameLen}

lemma Informed.announces (informed : Informed machine cb) : Announces (exactly machine) cb :=
  ⟨informed.1.divides, getDataSendRate_inRate machine cb, informed.2⟩

lemma Informed.quiet (informed : Informed machine cb)
    (unmeasured : Unmeasured (exactly machine) cb cb') : Informed machine cb' :=
  ⟨informed.1.quiet unmeasured, sentInRate_append machine informed.2 unmeasured.sent⟩

lemma Informed.handle {s : IntcpSeg} (informed : Informed machine cb)
    (timely : s.cmd ≠ intcpCmdInt → Timely (exactly machine) cb s) :
    Informed machine (handle (exactly machine) cb s).2 := by
  by_cases push : s.cmd = intcpCmdInt
  · exact informed.quiet (handle_interest cb push)
  · exact ⟨timely_history push informed.1 (timely push),
      sentInRate_append machine informed.2 (handle_sent cb s)⟩

/-- Data segments of an operation. -/
lemma atData_announces_iff (informed : Informed machine cb) (op : Op nameLen) :
    AtData (exactly machine)
        (fun cb s => Announces (exactly machine) (handle (exactly machine) cb s).2) cb op ↔
      AtData (exactly machine) (Timely (exactly machine)) cb op := by
  have hsame : ∀ (cb : IntcpTransCB K nameLen) s, Informed machine cb → True →
      ((s.cmd ≠ intcpCmdInt → Announces (exactly machine) (handle (exactly machine) cb s).2) ↔
        (s.cmd ≠ intcpCmdInt → Timely (exactly machine) cb s)) := by
    intro cb s informed _
    refine forall_congr' fun push => ⟨?_, ?_⟩
    · exact fun announces => divides_timely push informed.1 announces.divides
    · exact fun timely => (informed.handle fun _ => timely).announces
  refine forall_congr' fun data => forall_congr' fun _ => forall_congr' fun _ => ?_
  refine along_congr (Informed machine) hsame ?_ informed fun _ _ => trivial
  intro cb cb' s informed given announces step
  rw [pushStep] at step
  split at step
  · cases step
    exact informed.handle ((hsame cb s informed given).mp announces)
  · cases step

lemma announcesAfter_iff (informed : Informed machine cb) (op : Op nameLen) :
    AnnouncesAfter (exactly machine) cb op ↔
      AtData (exactly machine) (Timely (exactly machine)) cb op := by
  rw [AnnouncesAfter, atData_announces_iff informed]
  refine and_iff_left_of_imp fun timely cb' step => ?_
  refine Informed.announces (step_keeps (Informed machine) ?_ ?_ informed timely step)
  · exact fun cb cb' informed unmeasured => informed.quiet unmeasured
  · exact fun cb s informed timely => informed.handle timely

end Exact

/-- In every run the rate is in range and never the quotient by 0 or less, exactly if all data
segments of the run are timely. -/
theorem run_announces_iff (machine : Machine ℚ) (role : Role) (nameChars : Vector UInt8 nameLen)
    (cache : Cache nameLen) (ops : List (Op nameLen)) :
    (Announces (exactly machine) (.create (exactly machine) role nameChars cache) ∧
        Along (Op.step (exactly machine)) (AnnouncesAfter (exactly machine))
          (.create (exactly machine) role nameChars cache) ops) ↔
      Along (Op.step (exactly machine)) (AtData (exactly machine) (Timely (exactly machine)))
        (.create (exactly machine) role nameChars cache) ops := by
  have start : Informed machine (.create (exactly machine) role nameChars cache) := by
    refine ⟨⟨?_, ?_, ?_⟩, nofun⟩
    · exact fun _ => nofun
    · exact fun _ => nofun
    · exact fun negative => absurd negative (by decide : ¬ (0 : Int32).toInt < 0)
  rw [and_iff_right start.announces]
  refine along_congr (Informed machine) ?_ ?_ start fun _ _ => trivial
  · exact fun cb op informed _ => announcesAfter_iff informed op
  · intro cb cb' op informed _ announces step
    refine step_keeps (Informed machine) ?_ ?_ informed
      ((announcesAfter_iff informed op).mp announces)
      step
    · exact fun cb cb' informed unmeasured => informed.quiet unmeasured
    · exact fun cb s informed timely => informed.handle timely

/-- The clock gains a millisecond at every reading, and whole exponents. -/
def ticking : Machine ℚ where
  clock := fun n => UInt32.ofNat n
  raw := 0
  emptyBack := 0
  pow := fun a b => a ^ ⌊b⌋.toNat

def header (ts : UInt32) : List UInt8 :=
  frame { pushSeg (exactly ticking) 0 100 0 [] length_header with ts := ts }

def fresh : IntcpTransCB ℚ 1 :=
  .create (exactly ticking) .midnode #v[112] (Cache.fresh fun _ _ => 0)

/-- After a header stamped ahead of the clock. -/
def ahead : IntcpTransCB ℚ 1 := (input (exactly ticking) fresh (header 9)).2

/-- The header ahead of the clock puts a sample of 0 into the queue, and the one behind it brings
the first estimate. -/
theorem second_header_divides_by_zero :
    ¬ (Announces (exactly ticking) fresh ∧
      Along (Op.step (exactly ticking)) (AnnouncesAfter (exactly ticking)) fresh
        [.input (header 9), .input (header 0)]) := by
  rintro ⟨_, _, after⟩
  have hlive : ahead.state ≠ -1 := by decide +kernel
  have hsecond := (after ahead rfl).1.2 _ (if_neg hlive)
  have hzero : 0 ∈ divisors (input (exactly ticking) ahead (header 0)).2 := by decide +kernel
  exact absurd (hsecond.divides 0 hzero) (by decide)

end SendRate
