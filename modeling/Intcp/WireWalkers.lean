import Intcp.GroundStation
import Intcp.InputLoop

/-!
# Three walkers of the wire format

The loop of `input`, `GSrecvFunc` of udp_intcp.cpp and `Callback_udp` of
sniff.py each step through the segments of a datagram, with a pointer and a
size, with the pointer to the current segment as well, and with a position.
The record of a walk is the list of segments it visits.
-/

namespace WireWalkers

open LittleEndian Words BlockCache TransControl SegmentCodec DataPlane NodeCore InputLoop
open GroundStation

universe u
variable {F : Type u} {nameLen : Nat}

/-- A segment as a walker sees it: where it starts, and what it reads there. -/
structure Visit where
  offset : Nat
  cmd : Nat
  sn : Nat
  len : Nat
  rangeStart : Nat
  rangeEnd : Nat
  deriving DecidableEq, Repr

def seen (offset : Nat) (seg : IntcpSeg) : Visit where
  offset := offset
  cmd := seg.cmd.toNat
  sn := seg.sn.toNat
  len := seg.len.toNat
  rangeStart := seg.rangeStart.toNat
  rangeEnd := seg.rangeEnd.toNat

/-- The segments of a datagram where they were framed. -/
def boundaries : Nat → List IntcpSeg → List Visit
  | _, [] => []
  | offset, seg :: rest => seen offset seg :: boundaries (offset + (frame seg).length) rest

/-- What `input` returned, the segments it visited, and the bytes it left unread. -/
structure Walked (F : Type u) (nameLen : Nat) where
  code : Int32
  cb : IntcpTransCB F nameLen
  visits : List Visit
  left : List UInt8

def Walked.after (walked : Walked F nameLen) (visit : Visit) : Walked F nameLen :=
  { walked with visits := visit :: walked.visits }

/-- `inputLoop` with its visits, in a datagram of `total` bytes. -/
def walkInputLoop (P : Platform F) (total : Nat) :
    Nat → List UInt8 → IntcpTransCB F nameLen → Walked F nameLen
  | 0, data, cb => ⟨0, cb, [], data⟩
  | fuel + 1, data, cb =>
    let current := getMillisec P cb
    let cb := tick cb
    match nextSeg P.raw data with
    | .short => ⟨0, cb, [], data⟩
    | .fault code => ⟨code, cb, [], data⟩
    | .seg s rest =>
      let visit := seen (total - data.length) s
      if s.cmd = intcpCmdInt then (walkInputLoop P total fuel rest (inputInt P cb s)).after visit
      else
        let pushed := inputPush P cb current s
        if pushed.1 then (walkInputLoop P total fuel rest pushed.2).after visit
        else ⟨0, pushed.2, [visit], rest⟩

def walkInput (P : Platform F) (cb : IntcpTransCB F nameLen) (data : List UInt8) :
    Walked F nameLen :=
  if data.length < intcpOverhead.toNat then ⟨-1, cb, [], data⟩
  else walkInputLoop P data.length (data.length + 1) data cb

lemma walkInputLoop_eq (P : Platform F) (total fuel : Nat) (data : List UInt8)
    (cb : IntcpTransCB F nameLen) :
    ((walkInputLoop P total fuel data cb).code, (walkInputLoop P total fuel data cb).cb) =
      inputLoop P fuel data cb := by
  induction fuel generalizing data cb with
  | zero => rfl
  | succ fuel ih =>
    rw [walkInputLoop, inputLoop]
    cases hnext : nextSeg P.raw data with
    | short => rfl
    | fault code => rfl
    | seg s rest =>
      by_cases hcmd : s.cmd = intcpCmdInt
      · simp only [if_pos hcmd]
        exact ih rest _
      · simp only [if_neg hcmd]
        cases hgo : (inputPush P (tick cb) (getMillisec P cb) s).1 with
        | true => exact ih rest _
        | false => rfl

/-- The record of the walk changes nothing. -/
theorem walkInput_eq (P : Platform F) (cb : IntcpTransCB F nameLen) (data : List UInt8) :
    ((walkInput P cb data).code, (walkInput P cb data).cb) = input P cb data := by
  rw [walkInput, input]
  split
  · rfl
  · exact walkInputLoop_eq P _ _ data cb

inductive Dest where
  | go
  | back
  deriving DecidableEq, Repr

/-- The two sessions of a ground station, which have one cache. -/
structure Sessions (F : Type u) (nameLen : Nat) where
  sessGo : IntcpSess F nameLen
  sessBack : IntcpSess F nameLen

/-- `inputUDP` of one session; the other one sees the cache as it is afterwards. The
sessions read the clock at times of their own, `P` and `Q`. -/
def Sessions.inputUDP (P Q : Platform F) (sessions : Sessions F nameLen) (dest : Dest)
    (recvBuf : List UInt8) : Sessions F nameLen :=
  match dest with
  | .go =>
    let sess := GroundStation.inputUDP P sessions.sessGo recvBuf
    { sessGo := sess
      sessBack := { sessions.sessBack with
        transCB := withCache sessions.sessBack.transCB sess.transCB.cache } }
  | .back =>
    let sess := GroundStation.inputUDP Q sessions.sessBack recvBuf
    { sessGo := { sessions.sessGo with
        transCB := withCache sessions.sessGo.transCB sess.transCB.cache }
      sessBack := sess }

/-- What `GSrecvFunc` returned and did: the segments it visited and its calls of `inputUDP`. -/
structure GsRecv (F : Type u) (nameLen : Nat) where
  tot : Int32
  sessions : Sessions F nameLen
  visits : List Visit
  calls : List (Dest × List UInt8)

/-- The loop of `GSrecvFunc`; `data` is what is behind the pointer. -/
def gsRecvLoop (P Q : Platform F) (total : Nat) :
    Nat → List UInt8 → Int32 → Sessions F nameLen → GsRecv F nameLen
  | 0, _, _, sessions => ⟨0, sessions, [], []⟩
  | fuel + 1, data, size, sessions =>
    if size < intcpOverhead.toInt32 then ⟨0, sessions, [], []⟩
    else
      let dataOrg := data
      let cmd := decode8u data
      let wnd := decode16 cmd.2
      let ts := decode32u wnd.2
      let sn := decode32u ts.2
      let len := decode32u sn.2
      let rangeStart := decode32u len.2
      let rangeEnd := decode32u rangeStart.2
      let data := rangeEnd.2
      let size := size - intcpOverhead.toInt32
      if size.toInt < len.1.toNat ∨ len.1.toInt32 < 0 then ⟨0, sessions, [], []⟩
      else if cmd.1 ≠ intcpCmdPush ∧ cmd.1 ≠ intcpCmdInt then ⟨0, sessions, [], []⟩
      else
        let dest : Dest := if cmd.1 = intcpCmdInt then .go else .back
        let recvBuf := dataOrg.take (intcpOverhead + len.1).toInt32.toNatClampNeg
        let later := gsRecvLoop P Q total fuel (data.drop len.1.toNat) (size - len.1.toInt32)
          (sessions.inputUDP P Q dest recvBuf)
        { later with
          visits := ⟨total - dataOrg.length, cmd.1.toNat, sn.1.toNat, len.1.toNat,
            rangeStart.1.toNat, rangeEnd.1.toNat⟩ :: later.visits
          calls := (dest, recvBuf) :: later.calls }

/-- A round takes 23 bytes at least. -/
def gsRecvFunc (P Q : Platform F) (data : List UInt8) (buflen : Int32)
    (sessions : Sessions F nameLen) : GsRecv F nameLen :=
  gsRecvLoop P Q data.length (data.length + 1) data buflen sessions

/-- `bytePayload[i:j]` -/
def slice (bytePayload : List UInt8) (i j : Nat) : List UInt8 := (bytePayload.drop i).take (j - i)

/-- `int.from_bytes(bs, byteorder='little')` -/
def fromBytes (bs : List UInt8) : Nat := bs.foldr (fun b n => b.toNat + 256 * n) 0

structure Unpacked where
  cmd : Nat
  wnd : Nat
  ts : Nat
  sn : Nat
  length : Nat
  rangeStart : Nat
  rangeEnd : Nat

def unpack (bytePayload : List UInt8) (pos : Nat) : Unpacked where
  cmd := fromBytes (slice bytePayload pos (pos + 1))
  wnd := fromBytes (slice bytePayload (pos + 1) (pos + 3))
  ts := fromBytes (slice bytePayload (pos + 3) (pos + 7))
  sn := fromBytes (slice bytePayload (pos + 7) (pos + 11))
  length := fromBytes (slice bytePayload (pos + 11) (pos + 15))
  rangeStart := fromBytes (slice bytePayload (pos + 15) (pos + 19))
  rangeEnd := fromBytes (slice bytePayload (pos + 19) (pos + 23))

/-- A printed line, without the time. -/
structure Line where
  sn : Nat
  length : Nat
  rangeStart : Nat
  rangeEnd : Nat
  deriving DecidableEq, Repr

structure Sniffed where
  visits : List Visit
  lines : List Line
  packet_cnt : Nat

/-- The loop of `Callback_udp`. -/
def callbackLoop (bytePayload : List UInt8) : Nat → Nat → Nat → Sniffed
  | 0, _, packet_cnt => ⟨[], [], packet_cnt⟩
  | fuel + 1, pos, packet_cnt =>
    if pos + 23 > bytePayload.length then ⟨[], [], packet_cnt⟩
    else
      let u := unpack bytePayload pos
      let visit : Visit := ⟨pos, u.cmd, u.sn, u.length, u.rangeStart, u.rangeEnd⟩
      if u.cmd = 81 then
        let later := callbackLoop bytePayload fuel (pos + (23 + u.length)) (packet_cnt + 1)
        { later with
          visits := visit :: later.visits
          lines := ⟨u.sn, u.length, u.rangeStart, u.rangeEnd⟩ :: later.lines }
      else
        let later := callbackLoop bytePayload fuel (pos + (23 + u.length)) packet_cnt
        { later with visits := visit :: later.visits }

/-- The position moves on by 23 at least. -/
def callbackUdp (bytePayload : List UInt8) (packet_cnt : Nat) : Sniffed :=
  callbackLoop bytePayload (bytePayload.length + 1) 0 packet_cnt

/-- The segments that a datagram may be made of: interests without payload, headers,
and data segments whose payload is their range. -/
def OnWire (seg : IntcpSeg) : Prop :=
  (seg.cmd = intcpCmdInt ∧ seg.len = 0) ∨
    (seg.cmd = intcpCmdPush ∧ (seg.len = 0 ∨ seg.rangeEnd - seg.rangeStart = seg.len))

instance (seg : IntcpSeg) : Decidable (OnWire seg) := inferInstanceAs (Decidable (_ ∨ _))

lemma OnWire.command {seg : IntcpSeg} (wire : OnWire seg) :
    seg.cmd = intcpCmdPush ∨ seg.cmd = intcpCmdInt := by
  rcases wire with h | h
  · exact .inr h.1
  · exact .inl h.1

lemma OnWire.consistent {seg : IntcpSeg} (wire : OnWire seg) : Consistent seg := by
  rcases wire with h | h
  · exact .inl h.1
  · exact .inr h.2

/-- A length that fits a datagram is one that `int` can hold. -/
lemma not_neg_of_small {len : UInt32} (small : len.toNat < 2 ^ 31) : ¬ len.toInt32 < 0 := by
  have hint := toInt_toInt32 small
  rw [Int32.lt_iff_toInt_lt, Int32.toInt_zero]
  omega

lemma OnWire.sendable {seg : IntcpSeg} (wire : OnWire seg) (small : (frame seg).length < 2 ^ 31) :
    Sendable seg := by
  rw [length_frame] at small
  exact ⟨wire.command, not_neg_of_small (by omega)⟩

section Frames

variable {segs : List IntcpSeg} {stray : List UInt8}

lemma frames_short (short : stray.length < 23)
    (h : (segs.flatMap frame ++ stray).length < 23) : segs = [] := by
  cases segs with
  | nil => rfl
  | cons seg rest =>
    have hlen := length_frame seg
    simp only [List.flatMap_cons, List.length_append] at h
    omega

end Frames

section Input

variable (P : Platform F)

lemma walkInputLoop_frames {segs : List IntcpSeg} (wire : ∀ seg ∈ segs, OnWire seg)
    {stray : List UInt8} (short : stray.length < 23) (total fuel offset : Nat)
    (fits : (segs.flatMap frame ++ stray).length < 2 ^ 31)
    (place : offset + (segs.flatMap frame ++ stray).length = total)
    (enough : (segs.flatMap frame ++ stray).length < fuel) (cb : IntcpTransCB F nameLen) :
    (walkInputLoop P total fuel (segs.flatMap frame ++ stray) cb).code = 0 ∧
      (walkInputLoop P total fuel (segs.flatMap frame ++ stray) cb).visits =
        boundaries offset segs ∧
      (walkInputLoop P total fuel (segs.flatMap frame ++ stray) cb).left = stray := by
  induction segs generalizing fuel offset cb with
  | nil =>
    obtain ⟨fuel, rfl⟩ : ∃ k, fuel = k + 1 := ⟨fuel - 1, by omega⟩
    have hnext : nextSeg P.raw stray = .short := if_pos short
    simp only [List.flatMap_nil, List.nil_append, walkInputLoop, hnext, boundaries, and_self]
  | cons seg rest ih =>
    obtain ⟨fuel, rfl⟩ : ∃ k, fuel = k + 1 := ⟨fuel - 1, by omega⟩
    obtain ⟨hseg, hrest⟩ := List.forall_mem_cons.mp wire
    have hlen := length_frame seg
    rw [List.flatMap_cons, List.append_assoc] at fits place enough ⊢
    rw [List.length_append] at fits place enough
    have hsend := hseg.sendable (by omega)
    have hplace : total - (frame seg ++ (rest.flatMap frame ++ stray)).length = offset := by
      rw [List.length_append]
      omega
    rw [walkInputLoop, nextSeg_frame P.raw hsend]
    by_cases hcmd : (received P.raw seg).cmd = intcpCmdInt
    · have later := ih hrest fuel (offset + (frame seg).length) (by omega)
        (by omega) (by omega) (inputInt P (tick cb) (received P.raw seg))
      simp only [hplace, if_pos hcmd, Walked.after, later, boundaries]
      exact ⟨trivial, rfl, trivial⟩
    · have hgo : (inputPush P (tick cb) (getMillisec P cb) (received P.raw seg)).1 = true := by
        have hflag := (handle_flag (P := P) cb (received P.raw seg)).mpr hseg.consistent
        rwa [handle, if_neg hcmd] at hflag
      have later := ih hrest fuel (offset + (frame seg).length) (by omega)
        (by omega) (by omega) (inputPush P (tick cb) (getMillisec P cb) (received P.raw seg)).2
      simp only [hplace, if_neg hcmd, if_pos hgo, Walked.after, later, boundaries]
      exact ⟨trivial, rfl, trivial⟩

lemma walkInput_frames {segs : List IntcpSeg} (wire : ∀ seg ∈ segs, OnWire seg)
    {stray : List UInt8} (short : stray.length < 23)
    (fits : (segs.flatMap frame ++ stray).length < 2 ^ 31) (cb : IntcpTransCB F nameLen) :
    (walkInput P cb (segs.flatMap frame ++ stray)).visits = boundaries 0 segs ∧
      (walkInput P cb (segs.flatMap frame ++ stray)).left = stray := by
  have hoverhead : intcpOverhead.toNat = 23 := rfl
  rw [walkInput, hoverhead]
  split
  · rename_i hshort
    rw [frames_short short hshort]
    exact ⟨rfl, rfl⟩
  · exact (walkInputLoop_frames P wire short _ _ 0 fits (Nat.zero_add _) (Nat.lt_succ_self _) cb).2

/-- An `input` of the segment alone returns 0, visits it and leaves nothing. -/
def ConsumedWhole (P : Platform F) (nameLen : Nat) (seg : IntcpSeg) : Prop :=
  ∀ cb : IntcpTransCB F nameLen, (walkInput P cb (frame seg)).code = 0 ∧
    (walkInput P cb (frame seg)).visits = [seen 0 seg] ∧ (walkInput P cb (frame seg)).left = []

lemma consumedWhole {seg : IntcpSeg} (wire : OnWire seg) (small : (frame seg).length < 2 ^ 31) :
    ConsumedWhole P nameLen seg := by
  intro cb
  have hlen := length_frame seg
  have hoverhead : intcpOverhead.toNat = 23 := rfl
  have hone : [seg].flatMap frame ++ [] = frame seg := by simp
  have hwire : ∀ x ∈ [seg], OnWire x := by simpa using wire
  have hnone : ([] : List UInt8).length < 23 := by decide
  have hwalk := walkInputLoop_frames P hwire hnone (frame seg).length ((frame seg).length + 1) 0
    (by rwa [hone]) (by rw [hone, Nat.zero_add]) (by rw [hone]; omega) cb
  rw [hone] at hwalk
  rw [walkInput, hoverhead, if_neg (by omega)]
  exact hwalk

lemma input_code {seg : IntcpSeg} (whole : ConsumedWhole P nameLen seg)
    (cb : IntcpTransCB F nameLen) : (input P cb (frame seg)).1 = 0 := by
  rw [← walkInput_eq]
  exact (whole cb).1

end Input

section Ground

variable (P Q : Platform F)

/-- The session that a segment belongs to. -/
def dest (seg : IntcpSeg) : Dest := if seg.cmd = intcpCmdInt then .go else .back

/-- The calls of `inputUDP` on one session, each with what `input` returned. -/
def calledWith (which : Dest) (segs : List IntcpSeg) : List (Int32 × List UInt8) :=
  (segs.filter fun seg => dest seg = which).map fun seg => (0, frame seg)

lemma inputUDP_inputs {seg : IntcpSeg} (wireGo : ConsumedWhole P nameLen seg)
    (wireBack : ConsumedWhole Q nameLen seg) (sessions : Sessions F nameLen) :
    (sessions.inputUDP P Q (dest seg) (frame seg)).sessGo.inputs =
        sessions.sessGo.inputs ++ calledWith .go [seg] ∧
      (sessions.inputUDP P Q (dest seg) (frame seg)).sessBack.inputs =
        sessions.sessBack.inputs ++ calledWith .back [seg] := by
  cases hdest : dest seg with
  | go =>
    simp only [Sessions.inputUDP, GroundStation.inputUDP, input_code P wireGo]
    simp [calledWith, hdest]
  | back =>
    simp only [Sessions.inputUDP, GroundStation.inputUDP, input_code Q wireBack]
    simp [calledWith, hdest]

lemma calledWith_cons (which : Dest) (seg : IntcpSeg) (rest : List IntcpSeg) :
    calledWith which (seg :: rest) = calledWith which [seg] ++ calledWith which rest := by
  simp only [calledWith, ← List.map_append, ← List.filter_append, List.singleton_append]

/-- What `GSrecvFunc` is to do with the segments of a datagram. -/
structure HandsOver (segs : List IntcpSeg) (offset : Nat) (sessions : Sessions F nameLen)
    (recv : GsRecv F nameLen) : Prop where
  visits : recv.visits = boundaries offset segs
  calls : recv.calls = segs.map fun seg => (dest seg, frame seg)
  go : recv.sessions.sessGo.inputs = sessions.sessGo.inputs ++ calledWith .go segs
  back : recv.sessions.sessBack.inputs = sessions.sessBack.inputs ++ calledWith .back segs

/-- The bytes that the call for a segment is given. -/
lemma recvBuf_eq {seg : IntcpSeg} (small : (frame seg).length < 2 ^ 31) (rest : List UInt8) :
    (frame seg ++ rest).take (intcpOverhead + seg.len).toInt32.toNatClampNeg = frame seg := by
  have hlen := length_frame seg
  have hoverhead : intcpOverhead.toNat = 23 := rfl
  have hsum : (intcpOverhead + seg.len).toNat = (frame seg).length := by
    rw [toNat_add_small] <;> omega
  have hint : (intcpOverhead + seg.len).toInt32.toNatClampNeg = (frame seg).length := by
    rw [Int32.toNatClampNeg, toInt_toInt32 (by omega), hsum, Int.toNat_natCast]
  rw [hint, List.take_left]

/-- The size that is left of a datagram at a header and behind the segment. -/
lemma size_behind {size : Int32} {len : UInt32} {rest : Nat}
    (whole : size.toInt = 23 + len.toNat + rest) (small : 23 + len.toNat + rest < 2 ^ 31) :
    ¬ size < intcpOverhead.toInt32 ∧
      ¬ ((size - intcpOverhead.toInt32).toInt < len.toNat ∨ len.toInt32 < 0) ∧
      (size - intcpOverhead.toInt32 - len.toInt32).toInt = rest := by
  have hoverhead : intcpOverhead.toInt32.toInt = 23 := rfl
  have hbody : (size - intcpOverhead.toInt32).toInt = size.toInt - 23 := by
    rw [toInt_sub_exact] <;> rw [hoverhead]
    all_goals omega
  have hlen : len.toInt32.toInt = len.toNat := toInt_toInt32 (by omega)
  refine ⟨?_, ?_, ?_⟩
  · rw [Int32.lt_iff_toInt_lt, hoverhead]
    omega
  · rw [hbody, Int32.lt_iff_toInt_lt, hlen, Int32.toInt_zero]
    omega
  · rw [toInt_sub_exact] <;> rw [hbody, hlen]
    all_goals omega

lemma gsRecvLoop_frames {segs : List IntcpSeg} (wire : ∀ seg ∈ segs, OnWire seg)
    {stray : List UInt8} (short : stray.length < 23) (total fuel offset : Nat)
    (fits : (segs.flatMap frame ++ stray).length < 2 ^ 31)
    (place : offset + (segs.flatMap frame ++ stray).length = total)
    (enough : (segs.flatMap frame ++ stray).length < fuel) {size : Int32}
    (hsize : size.toInt = (segs.flatMap frame ++ stray).length) (sessions : Sessions F nameLen) :
    HandsOver segs offset sessions
      (gsRecvLoop P Q total fuel (segs.flatMap frame ++ stray) size sessions) := by
  induction segs generalizing fuel offset size sessions with
  | nil =>
    obtain ⟨fuel, rfl⟩ : ∃ k, fuel = k + 1 := ⟨fuel - 1, by omega⟩
    have hoverhead : intcpOverhead.toInt32.toInt = 23 := rfl
    have hshort : size < intcpOverhead.toInt32 := by
      rw [Int32.lt_iff_toInt_lt, hsize, hoverhead]
      simp only [List.flatMap_nil, List.nil_append]
      omega
    rw [gsRecvLoop, if_pos hshort]
    exact ⟨rfl, rfl, (List.append_nil _).symm, (List.append_nil _).symm⟩
  | cons seg rest ih =>
    obtain ⟨fuel, rfl⟩ : ∃ k, fuel = k + 1 := ⟨fuel - 1, by omega⟩
    obtain ⟨hseg, hrest⟩ := List.forall_mem_cons.mp wire
    have hlen := length_frame seg
    rw [List.flatMap_cons, List.append_assoc] at fits place enough hsize ⊢
    rw [List.length_append] at fits place enough hsize
    obtain ⟨hlong, hfit, hnext⟩ :=
      @size_behind size seg.len (rest.flatMap frame ++ stray).length (by omega) (by omega)
    have hcmd : ¬ (seg.cmd ≠ intcpCmdPush ∧ seg.cmd ≠ intcpCmdInt) := by
      rcases hseg.command with h | h <;> simp [h]
    have hplace : total - (frame seg ++ (rest.flatMap frame ++ stray)).length = offset := by
      rw [List.length_append]
      omega
    have hdrop : (seg.data ++ (rest.flatMap frame ++ stray)).drop seg.len.toNat =
        rest.flatMap frame ++ stray := by
      rw [← seg.dataLen, List.drop_left]
    obtain ⟨hgo, hback⟩ := inputUDP_inputs P Q (consumedWhole P hseg (by omega))
      (consumedWhole Q hseg (by omega)) sessions
    have hcall := recvBuf_eq (show (frame seg).length < 2 ^ 31 by omega) (rest.flatMap frame ++ stray)
    have later := ih hrest fuel (offset + (frame seg).length) (by omega)
      (by omega) (by omega) hnext (sessions.inputUDP P Q (dest seg) (frame seg))
    rw [gsRecvLoop, if_neg hlong]
    simp only [frame, encodeSeg, List.append_assoc, decode8u_encode8u, decode16_encode16,
      decode32u_encode32u] at hplace hcall ⊢
    rw [hplace, hcall, hdrop, if_neg hfit, if_neg hcmd]
    refine ⟨?_, ?_, ?_, ?_⟩
    · exact congrArg _ later.visits
    · exact congrArg _ later.calls
    · refine later.go.trans ?_
      rw [hgo, List.append_assoc, ← calledWith_cons .go seg rest]
    · refine later.back.trans ?_
      rw [hback, List.append_assoc, ← calledWith_cons .back seg rest]

lemma gsRecvFunc_frames {segs : List IntcpSeg} (wire : ∀ seg ∈ segs, OnWire seg)
    {stray : List UInt8} (short : stray.length < 23)
    (fits : (segs.flatMap frame ++ stray).length < 2 ^ 31) (sessions : Sessions F nameLen) :
    HandsOver segs 0 sessions (gsRecvFunc P Q (segs.flatMap frame ++ stray)
      (Int32.ofNat (segs.flatMap frame ++ stray).length) sessions) := by
  have hsize : (Int32.ofNat (segs.flatMap frame ++ stray).length).toInt =
      (segs.flatMap frame ++ stray).length := by
    rw [Int32.toInt_ofNat_of_lt fits]
  exact gsRecvLoop_frames P Q wire short _ _ 0 fits (Nat.zero_add _) (Nat.lt_succ_self _) hsize sessions

end Ground

section Sniff

/-- Only what is behind the position is read. -/
lemma unpack_drop (bytePayload : List UInt8) (pos : Nat) :
    unpack bytePayload pos = unpack (bytePayload.drop pos) 0 := by
  simp only [unpack, slice, List.drop_drop, Nat.zero_add, Nat.add_sub_cancel_left,
    Nat.add_sub_add_left, Nat.add_zero, Nat.sub_zero]

lemma fromBytes_take (w : Nat) (bs : List UInt8) :
    fromBytes (bs.take w) = LittleEndian.get w bs := by
  induction w generalizing bs with
  | zero => rfl
  | succ w ih =>
    cases bs with
    | nil => rfl
    | cons b bs =>
      have hrest := ih bs
      simp only [fromBytes] at hrest
      simp only [List.take_succ_cons, fromBytes, List.foldr_cons, LittleEndian.get, hrest]

lemma toNat_word32 (bs : List UInt8) : (word32 bs).toNat = LittleEndian.get 4 bs :=
  UInt32.toNat_ofNat_of_lt' (get_lt 4 bs)

/-- The four bytes at `i` of a header, where a field stands. -/
lemma field_eq {bytePayload : List UInt8} {field : UInt32} {i j : Nat}
    (here : encode32u field <+: bytePayload.drop i) (width : j - i = 4) :
    fromBytes (slice bytePayload i j) = field.toNat := by
  obtain ⟨after, hafter⟩ := here
  rw [slice, ← hafter, width, fromBytes_take, ← toNat_word32, encode32u, word32_bytes32]

lemma unpack_frame (seg : IntcpSeg) (rest : List UInt8) :
    (unpack (frame seg ++ rest) 0).cmd = seg.cmd.toNat ∧
      (unpack (frame seg ++ rest) 0).sn = seg.sn.toNat ∧
      (unpack (frame seg ++ rest) 0).length = seg.len.toNat ∧
      (unpack (frame seg ++ rest) 0).rangeStart = seg.rangeStart.toNat ∧
      (unpack (frame seg ++ rest) 0).rangeEnd = seg.rangeEnd.toNat := by
  have hframe : frame seg ++ rest = encode8u seg.cmd ++ (encode16 seg.wnd ++ (encode32u seg.ts ++
      (encode32u seg.sn ++ (encode32u seg.len ++ (encode32u seg.rangeStart ++
        (encode32u seg.rangeEnd ++ (seg.data ++ rest))))))) := by
    simp only [frame, encodeSeg, List.append_assoc]
  have hdrop : ∀ (n : Nat) (field : UInt32) (after : List UInt8),
      (encode32u field ++ after).drop (n + 4) = after.drop n := by
    intro n field after
    have hlen : (encode32u field).length = 4 := length_bytes32 field
    rw [Nat.add_comm, ← List.drop_drop, List.drop_left' hlen]
  have hhead : ∀ (n : Nat) (after : List UInt8),
      (encode8u seg.cmd ++ (encode16 seg.wnd ++ after)).drop (n + 3) = after.drop n := by
    intro n after
    have hlen : (encode8u seg.cmd ++ encode16 seg.wnd).length = 3 := by simp [encode8u, encode16]
    rw [← List.append_assoc, Nat.add_comm, ← List.drop_drop, List.drop_left' hlen]
  refine ⟨?_, ?_, ?_, ?_, ?_⟩
  · rw [hframe]
    simp [unpack, slice, fromBytes, encode8u]
  · refine field_eq (j := 11) (i := 7) ?_ rfl
    rw [hframe, hhead 4, hdrop 0, List.drop_zero]
    exact List.prefix_append _ _
  · refine field_eq (j := 15) (i := 11) ?_ rfl
    rw [hframe, hhead 8, hdrop 4, hdrop 0, List.drop_zero]
    exact List.prefix_append _ _
  · refine field_eq (j := 19) (i := 15) ?_ rfl
    rw [hframe, hhead 12, hdrop 8, hdrop 4, hdrop 0, List.drop_zero]
    exact List.prefix_append _ _
  · refine field_eq (j := 23) (i := 19) ?_ rfl
    rw [hframe, hhead 16, hdrop 12, hdrop 8, hdrop 4, hdrop 0, List.drop_zero]
    exact List.prefix_append _ _

/-- The lines printed, one for each PUSH segment. -/
def printed (segs : List IntcpSeg) : List Line :=
  (segs.filter fun seg => seg.cmd = intcpCmdPush).map fun seg =>
    ⟨seg.sn.toNat, seg.len.toNat, seg.rangeStart.toNat, seg.rangeEnd.toNat⟩

lemma callbackLoop_frames (segs : List IntcpSeg) {stray : List UInt8} (short : stray.length < 23)
    (bytePayload : List UInt8) (fuel pos : Nat)
    (here : bytePayload.drop pos = segs.flatMap frame ++ stray) (within : pos ≤ bytePayload.length)
    (enough : (segs.flatMap frame ++ stray).length < fuel) (packet_cnt : Nat) :
    callbackLoop bytePayload fuel pos packet_cnt =
      ⟨boundaries pos segs, printed segs, packet_cnt + (printed segs).length⟩ := by
  have hlength := congrArg List.length here
  rw [List.length_drop] at hlength
  induction segs generalizing fuel pos packet_cnt with
  | nil =>
    obtain ⟨fuel, rfl⟩ : ∃ k, fuel = k + 1 := ⟨fuel - 1, by omega⟩
    simp only [List.flatMap_nil, List.nil_append] at hlength
    rw [callbackLoop, if_pos (by omega)]
    rfl
  | cons seg rest ih =>
    obtain ⟨fuel, rfl⟩ : ∃ k, fuel = k + 1 := ⟨fuel - 1, by omega⟩
    have hlen := length_frame seg
    rw [List.flatMap_cons, List.append_assoc] at here enough hlength
    rw [List.length_append] at enough hlength
    obtain ⟨hcmd, hsn, hlenField, hstart, hend⟩ :=
      unpack_frame seg (rest.flatMap frame ++ stray)
    rw [← here, ← unpack_drop] at hcmd hsn hlenField hstart hend
    have hnext : bytePayload.drop (pos + (23 + seg.len.toNat)) = rest.flatMap frame ++ stray := by
      rw [← List.drop_drop, here, List.drop_left' hlen]
    have later := fun cnt => ih fuel (pos + (23 + seg.len.toNat)) hnext (by omega)
      (by omega) cnt (by rw [← hnext, List.length_drop])
    rw [callbackLoop, if_neg (by omega)]
    by_cases hpush : seg.cmd = intcpCmdPush
    · have hdata : seg.cmd.toNat = 81 := congrArg UInt8.toNat hpush
      have hprinted : printed (seg :: rest) =
          ⟨seg.sn.toNat, seg.len.toNat, seg.rangeStart.toNat, seg.rangeEnd.toNat⟩ :: printed rest := by
        simp [printed, hpush]
      simp only [hcmd, if_pos hdata, hlenField, later, hprinted, boundaries, seen, hsn, hstart, hend,
        hlen, List.length_cons, Nat.add_assoc, Nat.add_comm 1]
    · have hother : ¬ seg.cmd.toNat = 81 := fun h => hpush (UInt8.toNat_inj.mp h)
      have hprinted : printed (seg :: rest) = printed rest := by
        simp [printed, hpush]
      simp only [hcmd, if_neg hother, hlenField, later, hprinted, boundaries, seen, hsn, hstart, hend,
        hlen]

end Sniff

section Agreement

variable (P Q : Platform F) (cb : IntcpTransCB F nameLen) (sessions : Sessions F nameLen)

/-- `input`, `GSrecvFunc` and the sniffer see the same segments in a datagram, and every
segment reaches its session whole. -/
structure Agreement (segs : List IntcpSeg) (datagram : List UInt8) (packet_cnt : Nat) : Prop where
  input : (walkInput P cb datagram).visits = boundaries 0 segs
  gsRecv : (gsRecvFunc P Q datagram (Int32.ofNat datagram.length) sessions).visits =
    boundaries 0 segs
  sniff : (callbackUdp datagram packet_cnt).visits = boundaries 0 segs
  lines : (callbackUdp datagram packet_cnt).lines = printed segs
  calls : (gsRecvFunc P Q datagram (Int32.ofNat datagram.length) sessions).calls =
    segs.map fun seg => (dest seg, frame seg)
  go : (gsRecvFunc P Q datagram (Int32.ofNat datagram.length) sessions).sessions.sessGo.inputs =
    sessions.sessGo.inputs ++ calledWith .go segs
  back : (gsRecvFunc P Q datagram (Int32.ofNat datagram.length) sessions).sessions.sessBack.inputs =
    sessions.sessBack.inputs ++ calledWith .back segs
  whole : ∀ seg ∈ segs, ConsumedWhole P nameLen seg ∧ ConsumedWhole Q nameLen seg

lemma length_frame_le {segs : List IntcpSeg} {seg : IntcpSeg} (h : seg ∈ segs) :
    (frame seg).length ≤ (segs.flatMap frame).length := by
  induction segs with
  | nil => cases h
  | cons first rest ih =>
    rw [List.flatMap_cons, List.length_append]
    rcases List.mem_cons.mp h with rfl | h
    · omega
    · have := ih h
      omega

end Agreement

/-- An interest, a header and a data segment. -/
def packed : List IntcpSeg :=
  [{ pushSeg freeClock 10 20 0 [] length_header with cmd := intcpCmdInt },
    pushSeg freeClock 20 30 0 [] length_header,
    pushSeg freeClock 30 33 3 (Buffer.bytes (fun _ => 7) 3) (length_chunk (fun _ => 7) 3)]

/-- A ground station before its first datagram. -/
def freshSessions : Sessions Rat 1 where
  sessGo := .create freeClock .responder #v[103] (Cache.fresh fun _ _ => 0) 0
  sessBack := .create freeClock .requester #v[98] (Cache.fresh fun _ _ => 0) 0

end WireWalkers
