import Intcp.InputLoop
import Intcp.HoleInvariants

/-!
# Segments that `input` rejects

A data segment whose length contradicts its range is not passed on, and neither is
anything behind it in the datagram: the loop breaks there.
-/

namespace RejectedSegments

open Words BlockCache TransControl SegmentCodec DataPlane HoleTracking InterestPlane NodeCore
  CallRules InputLoop

universe u
variable {F : Type u} {nameLen : Nat} {P : Platform F}

/-- A data segment with a payload that does not fill its range. -/
def Inconsistent (s : IntcpSeg) : Prop :=
  s.cmd = intcpCmdPush ∧ s.len ≠ 0 ∧ s.rangeEnd - s.rangeStart ≠ s.len

instance (s : IntcpSeg) : Decidable (Inconsistent s) := inferInstanceAs (Decidable (_ ∧ _ ∧ _))

/-- The segments of a queue that carry a payload. -/
def payloads (segs : List IntcpSeg) : List IntcpSeg := segs.filter fun seg => decide (seg.len ≠ 0)

/-- What a datagram can leave behind in the data plane. -/
def trace (cb : IntcpTransCB F nameLen) :
    UInt32 × List Hole × List IntcpSeg × List IntcpSeg × List IntcpSeg :=
  (cb.dataNextRangeStart, cb.dataHoles, cb.sndQueue, cb.rcvBuf, cb.rcvQueue)

/-- A segment whose bytes could as well be cut out of the datagram. -/
def LeavesNoTrace (P : Platform F) (cb : IntcpTransCB F nameLen) (ahead : List IntcpSeg)
    (s : IntcpSeg) (behind : List UInt8) : Prop :=
  trace (input P cb (ahead.flatMap frame ++ (frame s ++ behind))).2 =
    trace (input P cb (ahead.flatMap frame ++ behind)).2

instance (P : Platform F) (cb : IntcpTransCB F nameLen) (ahead : List IntcpSeg) (s : IntcpSeg)
    (behind : List UInt8) : Decidable (LeavesNoTrace P cb ahead s behind) :=
  inferInstanceAs (Decidable (_ = _))

lemma Inconsistent.not_consistent {s : IntcpSeg} (bad : Inconsistent s) : ¬ Consistent s := by
  obtain ⟨hpush, hlen, hrange⟩ := bad
  rintro (hint | hzero | hfills)
  · rw [hpush] at hint
    exact absurd hint (by decide)
  · exact hlen hzero
  · exact hrange hfills

/-- Nothing with a payload went into a queue. -/
def PassesNothing (cb cb' : IntcpTransCB F nameLen) : Prop :=
  cb'.rcvBuf = cb.rcvBuf ∧ cb'.rcvQueue = cb.rcvQueue ∧ payloads cb'.sndQueue = payloads cb.sndQueue

lemma measureHop_passesNothing (cb : IntcpTransCB F nameLen) (current : UInt32) (s : IntcpSeg) :
    PassesNothing cb (measureHop P cb current s) := by
  have hself : PassesNothing cb cb := ⟨rfl, rfl, rfl⟩
  apply measureHop_rule (PassesNothing cb) _ _ _ hself
  · intro cb h
    exact h
  · intro cb cc rest h
    exact h
  · intro cb h _
    rw [outputInt_eq]
    exact h

/-- Hole detection puts at most a header into a queue. -/
lemma detectDataHole_passesNothing (cb : IntcpTransCB F nameLen) (s e : UInt32) :
    PassesNothing cb (detectDataHole P cb s e).2 := by
  have hheader : ∀ a b : UInt32, payloads (cb.sndQueue ++ [pushSeg P a b 0 [] length_header]) =
      payloads cb.sndQueue := by
    intro a b
    rw [payloads, List.filter_append, List.filter_singleton]
    simp [payloads, pushSeg]
  simp only [detectDataHole]
  split
  · exact ⟨rfl, rfl, rfl⟩
  · split
    · exact ⟨rfl, rfl, rfl⟩
    · split
      · exact ⟨rfl, rfl, rfl⟩
      · split
        · exact ⟨rfl, rfl, hheader _ _⟩
        · exact ⟨rfl, rfl, rfl⟩

lemma handle_inconsistent (cb : IntcpTransCB F nameLen) {s : IntcpSeg} (bad : Inconsistent s) :
    PassesNothing cb (handle P cb s).2 := by
  obtain ⟨hpush, hlen, hrange⟩ := bad
  have hint : s.cmd ≠ intcpCmdInt := by
    rw [hpush]
    decide
  obtain ⟨hbuf, hqueue, hsent⟩ :=
    measureHop_passesNothing (P := P) (tick cb) (getMillisec P cb) s
  obtain ⟨hbuf', hqueue', hsent'⟩ := detectDataHole_passesNothing (P := P)
    (measureHop P (tick cb) (getMillisec P cb) s) s.rangeStart s.rangeEnd
  simp only [handle, if_neg hint, inputPush, if_neg hlen, if_pos hrange, detect]
  exact ⟨hbuf'.trans hbuf, hqueue'.trans hqueue, hsent'.trans hsent⟩

/-- An inconsistent segment ends the loop, and what it leaves has no payload. -/
lemma handleAll_inconsistent (cb : IntcpTransCB F nameLen) (ahead later : List IntcpSeg)
    {s : IntcpSeg} (bad : Inconsistent s) :
    PassesNothing (handleAll P cb ahead).2 (handleAll P cb (ahead ++ s :: later)).2 := by
  rw [handleAll_append]
  cases hflag : (handleAll P cb ahead).1 with
  | false =>
    simp only [hflag, Bool.false_eq_true, if_false]
    exact ⟨rfl, rfl, rfl⟩
  | true =>
    have hbreak : (handle P (handleAll P cb ahead).2 s).1 = false := by
      rw [← Bool.not_eq_true, handle_flag]
      exact bad.not_consistent
    simp only [hflag, if_true, handleAll, hbreak, Bool.false_eq_true, if_false]
    exact handle_inconsistent _ bad

lemma trace_input (cb : IntcpTransCB F nameLen) (data : List UInt8) :
    trace (input P cb data).2 = trace (handleAll P cb (decode P.raw data).2).2 := by
  obtain ⟨n, hinput⟩ := input_handleAll (P := P) cb data
  rw [hinput]
  rfl

/-- The segments that a datagram yields first are the bytes it starts with. -/
lemma decode_prefix {data : List UInt8} {segs later : List IntcpSeg}
    (yields : (decode P.raw data).2 = segs ++ later) :
    ∃ behind, data = segs.flatMap frame ++ behind ∧
      ∀ rest, (decode P.raw (segs.flatMap frame ++ rest)).2 = segs ++ (decode P.raw rest).2 := by
  obtain ⟨hsend, tail, hbytes⟩ := decode_bytes P.raw data
  rw [yields] at hsend hbytes
  rw [List.flatMap_append, List.append_assoc] at hbytes
  have hsegs : ∀ x ∈ segs, Sendable x := fun x hx => hsend x (List.mem_append_left _ hx)
  have hsame : segs.map (received P.raw) = segs := by
    have hdecode := decode_append P.raw hsegs (later.flatMap frame ++ tail)
    rw [← hbytes, yields] at hdecode
    exact (List.append_inj_left hdecode (by simp)).symm
  refine ⟨later.flatMap frame ++ tail, hbytes, ?_⟩
  intro rest
  rw [decode_append P.raw hsegs rest, hsame]

/-- Cut off behind its first segments, a datagram yields just these. -/
lemma decode_cut {data : List UInt8} {segs later : List IntcpSeg}
    (yields : (decode P.raw data).2 = segs ++ later) :
    (decode P.raw (segs.flatMap frame)).2 = segs := by
  obtain ⟨_, _, hdecode⟩ := decode_prefix yields
  have hcut := hdecode []
  rwa [List.append_nil, show (decode P.raw []).2 = [] from rfl, List.append_nil] at hcut

/-- The loop of `input` stops at an inconsistent segment: the bytes behind it change neither
the state nor the code returned. -/
lemma input_stops (cb : IntcpTransCB F nameLen) {data : List UInt8}
    {ahead later : List IntcpSeg} {s : IntcpSeg}
    (yields : (decode P.raw data).2 = (ahead ++ [s]) ++ later) (bad : Inconsistent s) :
    input P cb data = input P cb ((ahead ++ [s]).flatMap frame) := by
  obtain ⟨behind, hbytes, _⟩ := decode_prefix yields
  have hcut := decode_cut yields
  have hframe : intcpOverhead.toNat ≤ ((ahead ++ [s]).flatMap frame).length := by
    have hoverhead : intcpOverhead.toNat = 23 := rfl
    simp only [List.flatMap_append, List.flatMap_cons, List.length_append, length_frame, hoverhead]
    omega
  have hlong : intcpOverhead.toNat ≤ data.length := by
    rw [hbytes, List.length_append]
    omega
  have hstopped : (handleAll P cb (ahead ++ [s])).1 = false := by
    rw [← Bool.not_eq_true, handleAll_flag]
    exact fun hall => bad.not_consistent (hall s (by simp))
  have hwhole : handleAll P cb (decode P.raw data).2 = handleAll P cb (ahead ++ [s]) := by
    rw [yields, handleAll_append]
    simp only [hstopped, Bool.false_eq_true, if_false]
  rw [input_break cb hlong (hwhole ▸ hstopped), input_break cb hframe (hcut.symm ▸ hstopped),
    hwhole, hcut]

/-- The loop stops at an inconsistent segment: the datagram does what it does cut off behind
that segment, and nothing with a payload is passed on but from ahead of it. Behind another one
it leaves no trace at all. -/
theorem inconsistent_stops (P : Platform F) (cb : IntcpTransCB F nameLen) {data : List UInt8}
    {ahead later : List IntcpSeg} {s : IntcpSeg}
    (yields : (decode P.raw data).2 = ahead ++ s :: later) (bad : Inconsistent s) :
    ∃ behind, data = ahead.flatMap frame ++ (frame s ++ behind) ∧
      input P cb data = input P cb (ahead.flatMap frame ++ frame s) ∧
      PassesNothing (input P cb (ahead.flatMap frame)).2 (input P cb data).2 ∧
      ((∃ x ∈ ahead, Inconsistent x) → LeavesNoTrace P cb ahead s behind) := by
  have hyields : (decode P.raw data).2 = (ahead ++ [s]) ++ later := by
    rw [yields, List.append_assoc, List.singleton_append]
  have hframes : (ahead ++ [s]).flatMap frame = ahead.flatMap frame ++ frame s := by
    rw [List.flatMap_append, List.flatMap_cons, List.flatMap_nil, List.append_nil]
  obtain ⟨behind, hbytes, _⟩ := decode_prefix hyields
  obtain ⟨_, _, hdecode⟩ := decode_prefix yields
  refine ⟨behind, ?_, ?_, ?_, ?_⟩
  · rw [hbytes, hframes, List.append_assoc]
  · rw [← hframes]
    exact input_stops cb hyields bad
  · obtain ⟨n, hwhole⟩ := input_handleAll (P := P) cb data
    obtain ⟨m, hcut⟩ := input_handleAll (P := P) cb (ahead.flatMap frame)
    rw [hwhole, hcut, yields, decode_cut yields]
    exact handleAll_inconsistent cb ahead later bad
  · rintro ⟨x, hx, hbad⟩
    have hstopped : (handleAll P cb ahead).1 = false := by
      rw [← Bool.not_eq_true, handleAll_flag]
      exact fun hall => hbad.not_consistent (hall x hx)
    have hignored : ∀ more, handleAll P cb (ahead ++ more) = handleAll P cb ahead := by
      intro more
      rw [handleAll_append]
      simp only [hstopped, Bool.false_eq_true, if_false]
    rw [LeavesNoTrace, trace_input, trace_input, hdecode, hdecode, hignored, hignored]

def firstByte : IntcpSeg := pushSeg freeClock 0 1 1 [8] rfl

/-- A range of 100 bytes over a payload of one. -/
def farJump : IntcpSeg := pushSeg freeClock 100 200 1 [9] rfl

/-- An empty range over a payload of one. -/
def noRange : IntcpSeg := pushSeg freeClock 0 0 1 [9] rfl

theorem inconsistent_stops_between :
    ∃ behind, frame firstByte ++ (frame farJump ++ frame firstByte) =
        [firstByte].flatMap frame ++ (frame farJump ++ behind) ∧
      input freeClock (IntcpTransCB.create freeClock .midnode #v[110] (Cache.fresh fun _ _ => 0))
          (frame firstByte ++ (frame farJump ++ frame firstByte)) =
        input freeClock (IntcpTransCB.create freeClock .midnode #v[110] (Cache.fresh fun _ _ => 0))
          ([firstByte].flatMap frame ++ frame farJump) ∧
      PassesNothing
        (input freeClock (IntcpTransCB.create freeClock .midnode #v[110] (Cache.fresh fun _ _ => 0))
          ([firstByte].flatMap frame)).2
        (input freeClock (IntcpTransCB.create freeClock .midnode #v[110] (Cache.fresh fun _ _ => 0))
          (frame firstByte ++ (frame farJump ++ frame firstByte))).2 ∧
      ((∃ x ∈ [firstByte], Inconsistent x) → LeavesNoTrace freeClock
        (IntcpTransCB.create freeClock .midnode #v[110] (Cache.fresh fun _ _ => 0))
        [firstByte] farJump behind) := by
  have hyields : (decode freeClock.raw (frame firstByte ++ (frame farJump ++ frame firstByte))).2 =
      [firstByte] ++ farJump :: [firstByte] := by
    decide +kernel
  exact inconsistent_stops freeClock _ hyields (by decide)

/-- Hole detection has moved the cursor before the check, and the loop breaks ahead of a
segment that is well formed. -/
theorem inconsistent_leaves_trace :
    Inconsistent farJump ∧ Inconsistent noRange ∧
      ¬ LeavesNoTrace freeClock
        (IntcpTransCB.create freeClock .midnode #v[110] (Cache.fresh fun _ _ => 0)) [] farJump [] ∧
      ¬ LeavesNoTrace freeClock
        (IntcpTransCB.create freeClock .midnode #v[110] (Cache.fresh fun _ _ => 0)) [] noRange
        (frame firstByte) := by
  decide +kernel

end RejectedSegments
