import Intcp.TransControl

/-!
# Segments on the wire

`encodeSeg` writes the 23 header bytes and the sender copies the payload after
them. `nextSeg` is the head of the loop of `input`: the header is decoded, the
payload length is checked against what is left, and the command is checked.
`decode` runs that head over a datagram. Decoding undoes framing, for any number
of segments packed into one datagram.
-/

namespace SegmentCodec

open LittleEndian Words TransControl

def encodeSeg (seg : IntcpSeg) : List UInt8 :=
  encode8u seg.cmd ++ (encode16 seg.wnd ++ (encode32u seg.ts ++ (encode32u seg.sn ++
    (encode32u seg.len ++ (encode32u seg.rangeStart ++ encode32u seg.rangeEnd)))))

/-- Header and payload of a segment. -/
def frame (seg : IntcpSeg) : List UInt8 := encodeSeg seg ++ seg.data

inductive Next where
  | short
  | fault (code : Int32)
  | seg (s : IntcpSeg) (rest : List UInt8)

/-- `xmit` is not on the wire; a fresh segment has what memory holds there. -/
def nextSeg (raw : UInt32) (data : List UInt8) : Next :=
  if data.length < intcpOverhead.toNat then .short
  else
    let cmd := decode8u data
    let wnd := decode16 cmd.2
    let ts := decode32u wnd.2
    let sn := decode32u ts.2
    let len := decode32u sn.2
    let rangeStart := decode32u len.2
    let rangeEnd := decode32u rangeStart.2
    let size := rangeEnd.2.length
    if h : size < len.1.toNat ∨ len.1.toInt32 < 0 then .fault (-2)
    else if cmd.1 ≠ intcpCmdPush ∧ cmd.1 ≠ intcpCmdInt then .fault (-3)
    else .seg {
      cmd := cmd.1
      wnd := wnd.1
      ts := ts.1
      sn := sn.1
      len := len.1
      rangeStart := rangeStart.1
      rangeEnd := rangeEnd.1
      xmit := raw
      data := rangeEnd.2.take len.1.toNat
      dataLen := by
        have hle : len.1.toNat ≤ size := by
          simp only [not_or, Nat.not_lt] at h
          exact h.1
        exact List.length_take_of_le hle } (rangeEnd.2.drop len.1.toNat)

/-- The segments that the head of the loop yields, and the code it stops with. -/
def walk (raw : UInt32) : Nat → List UInt8 → Int32 × List IntcpSeg
  | 0, _ => (0, [])
  | fuel + 1, data =>
    match nextSeg raw data with
    | .short => (0, [])
    | .fault code => (code, [])
    | .seg s rest =>
      let later := walk raw fuel rest
      (later.1, s :: later.2)

/-- Every segment takes 23 bytes at least, so the length of the datagram bounds the loop. -/
def decode (raw : UInt32) (data : List UInt8) : Int32 × List IntcpSeg :=
  walk raw (data.length + 1) data

/-- The loop accepts no other commands. -/
lemma nextSeg_cmd {raw : UInt32} {data rest : List UInt8} {s : IntcpSeg}
    (h : nextSeg raw data = .seg s rest) : s.cmd = intcpCmdPush ∨ s.cmd = intcpCmdInt := by
  rw [nextSeg] at h
  split at h
  · cases h
  · simp only at h
    split at h
    · cases h
    · split at h
      · cases h
      · rename_i hcmd
        cases h
        simp only
        by_contra hnone
        exact hcmd (not_or.mp hnone)

lemma length_encodeSeg (seg : IntcpSeg) : (encodeSeg seg).length = 23 := by
  simp [encodeSeg, encode8u, encode16, encode32u]

lemma length_frame (seg : IntcpSeg) : (frame seg).length = 23 + seg.len.toNat := by
  rw [frame, List.length_append, length_encodeSeg, seg.dataLen]

/-- A segment that a sender may frame: a known command and a length that `int` can hold. -/
structure Sendable (seg : IntcpSeg) : Prop where
  command : seg.cmd = intcpCmdPush ∨ seg.cmd = intcpCmdInt
  length : ¬ seg.len.toInt32 < 0

/-- What arrives of a segment: everything but the private `xmit`. -/
def received (raw : UInt32) (seg : IntcpSeg) : IntcpSeg := { seg with xmit := raw }

theorem nextSeg_frame (raw : UInt32) {seg : IntcpSeg} (sendable : Sendable seg)
    (rest : List UInt8) :
    nextSeg raw (frame seg ++ rest) = .seg (received raw seg) rest := by
  have hlong : ¬ (frame seg ++ rest).length < intcpOverhead.toNat := by
    have hoverhead : intcpOverhead.toNat = 23 := rfl
    rw [List.length_append, length_frame, hoverhead]
    omega
  have hsize : ¬ ((seg.data ++ rest).length < seg.len.toNat ∨ seg.len.toInt32 < 0) := by
    rintro (h | h)
    · rw [List.length_append, seg.dataLen] at h
      omega
    · exact sendable.length h
  have hcmd : ¬ (seg.cmd ≠ intcpCmdPush ∧ seg.cmd ≠ intcpCmdInt) := by
    rcases sendable.command with h | h <;> simp [h]
  have htake : (seg.data ++ rest).take seg.len.toNat = seg.data := by
    rw [← seg.dataLen, List.take_left]
  have hdrop : (seg.data ++ rest).drop seg.len.toNat = rest := by
    rw [← seg.dataLen, List.drop_left]
  rw [nextSeg, if_neg hlong]
  simp only [frame, encodeSeg, List.append_assoc, decode8u_encode8u, decode16_encode16,
    decode32u_encode32u, dif_neg hsize, if_neg hcmd, htake, hdrop, received]

theorem walk_frames (raw : UInt32) {segs : List IntcpSeg} (sendable : ∀ seg ∈ segs, Sendable seg)
    (fuel : Nat) (enough : segs.length ≤ fuel) :
    walk raw fuel (segs.flatMap frame) = (0, segs.map (received raw)) := by
  induction segs generalizing fuel with
  | nil => cases fuel <;> simp [walk, nextSeg, intcpOverhead]
  | cons seg segs ih =>
    obtain ⟨fuel, rfl⟩ : ∃ k, fuel = k + 1 := ⟨fuel - 1, by simp at enough; omega⟩
    simp only [List.mem_cons, forall_eq_or_imp] at sendable
    simp only [List.length_cons, Nat.add_le_add_iff_right] at enough
    rw [List.flatMap_cons, walk, nextSeg_frame raw sendable.1]
    simp only [ih sendable.2 fuel enough, List.map_cons]

lemma length_le_frames (segs : List IntcpSeg) : segs.length ≤ (segs.flatMap frame).length := by
  induction segs with
  | nil => exact Nat.le_refl 0
  | cons seg segs ih =>
    rw [List.flatMap_cons, List.length_append, length_frame, List.length_cons]
    omega

/-- Decoding a datagram gives back the segments that were framed into it. -/
theorem decode_frames (raw : UInt32) {segs : List IntcpSeg}
    (sendable : ∀ seg ∈ segs, Sendable seg) :
    decode raw (segs.flatMap frame) = (0, segs.map (received raw)) :=
  walk_frames raw sendable _ (Nat.le_succ_of_le (length_le_frames segs))

/-- A round takes the header and the payload off the datagram. -/
lemma nextSeg_length {raw : UInt32} {data rest : List UInt8} {s : IntcpSeg}
    (h : nextSeg raw data = .seg s rest) : rest.length + 23 ≤ data.length := by
  rw [nextSeg] at h
  split at h
  · cases h
  · rename_i hlong
    have hoverhead : intcpOverhead.toNat = 23 := rfl
    simp only at h
    split at h
    · cases h
    · split at h
      · cases h
      · cases h
        simp only [decode8u, decode16, decode32u, List.length_drop]
        omega

/-- What was decoded is what the datagram starts with. -/
lemma nextSeg_bytes {raw : UInt32} {data rest : List UInt8} {s : IntcpSeg}
    (h : nextSeg raw data = .seg s rest) : data = frame s ++ rest ∧ Sendable s := by
  have hcmd := nextSeg_cmd h
  rw [nextSeg] at h
  split at h
  · cases h
  · rename_i hlong
    have hoverhead : intcpOverhead.toNat = 23 := rfl
    rw [hoverhead] at hlong
    simp only at h
    split at h
    · cases h
    · rename_i hlen
      split at h
      · cases h
      · cases h
        refine ⟨?_, hcmd, fun hneg => hlen (Or.inr hneg)⟩
        have hpos : 1 ≤ data.length := by omega
        simp only [frame, encodeSeg, List.append_assoc, List.take_append_drop]
        rw [encode32u_decode32u, encode32u_decode32u, encode32u_decode32u, encode32u_decode32u,
          encode32u_decode32u, encode16_decode16, encode8u_decode8u hpos]
        all_goals
          simp only [decode8u, decode16, decode32u, List.length_drop]
          omega

lemma walk_bytes {raw : UInt32} (fuel : Nat) (data : List UInt8) :
    (∀ s ∈ (walk raw fuel data).2, Sendable s) ∧
      ∃ rest, data = (walk raw fuel data).2.flatMap frame ++ rest := by
  induction fuel generalizing data with
  | zero => exact ⟨by simp [walk], data, rfl⟩
  | succ fuel ih =>
    rw [walk]
    cases hnext : nextSeg raw data with
    | short => exact ⟨by simp, data, rfl⟩
    | fault code => exact ⟨by simp, data, rfl⟩
    | seg s more =>
      obtain ⟨hbytes, hsend⟩ := nextSeg_bytes hnext
      obtain ⟨hsends, rest, hrest⟩ := ih more
      refine ⟨List.forall_mem_cons.mpr ⟨hsend, hsends⟩, rest, ?_⟩
      rw [List.flatMap_cons, List.append_assoc, ← hrest]
      exact hbytes

/-- A datagram starts with the bytes of the segments decoded from it. -/
theorem decode_bytes (raw : UInt32) (data : List UInt8) :
    (∀ s ∈ (decode raw data).2, Sendable s) ∧
      ∃ rest, data = (decode raw data).2.flatMap frame ++ rest :=
  walk_bytes _ data

/-- A segment is no longer than the datagram it came in. -/
lemma decode_length {raw : UInt32} {data : List UInt8} {s : IntcpSeg}
    (h : s ∈ (decode raw data).2) :
    23 + s.len.toNat ≤ data.length := by
  obtain ⟨-, rest, hdata⟩ := decode_bytes raw data
  obtain ⟨before, after, hsplit⟩ := List.append_of_mem h
  have hframe := length_frame s
  have hlength := congrArg List.length hdata
  rw [hsplit] at hlength
  simp only [List.flatMap_append, List.flatMap_cons, List.length_append] at hlength
  omega

/-- More rounds than bytes decode the same. -/
lemma walk_enough {raw : UInt32} {n m : Nat} {data : List UInt8} (hn : data.length < n)
    (hm : data.length < m) : walk raw n data = walk raw m data := by
  induction n generalizing m data with
  | zero => omega
  | succ n ih =>
    obtain ⟨m, rfl⟩ : ∃ k, m = k + 1 := ⟨m - 1, by omega⟩
    rw [walk, walk]
    cases hnext : nextSeg raw data with
    | short => rfl
    | fault code => rfl
    | seg s rest =>
      have hlength := nextSeg_length hnext
      have hrest : walk raw n rest = walk raw m rest := ih (by omega) (by omega)
      simp only [hrest]

/-- Framed segments are decoded first, then what follows them. -/
theorem decode_append (raw : UInt32) {segs : List IntcpSeg} (sendable : ∀ seg ∈ segs, Sendable seg)
    (rest : List UInt8) :
    (decode raw (segs.flatMap frame ++ rest)).2 =
      segs.map (received raw) ++ (decode raw rest).2 := by
  induction segs with
  | nil => rfl
  | cons seg segs ih =>
    obtain ⟨hseg, hsegs⟩ := List.forall_mem_cons.mp sendable
    have hlength := length_frame seg
    have hwalk : walk raw (frame seg ++ (segs.flatMap frame ++ rest)).length
        (segs.flatMap frame ++ rest) = decode raw (segs.flatMap frame ++ rest) :=
      walk_enough (by simp only [List.length_append]; omega) (Nat.lt_succ_self _)
    rw [List.flatMap_cons, List.append_assoc, decode, walk, nextSeg_frame raw hseg]
    simp only [hwalk, ih hsegs, List.map_cons, List.cons_append]

/-- What memory holds at the receiver shows in `xmit` alone. -/
lemma nextSeg_raw (raw raw' : UInt32) (data : List UInt8) :
    nextSeg raw' data = match nextSeg raw data with
      | .seg s rest => .seg (received raw' s) rest
      | .short => .short
      | .fault code => .fault code := by
  simp only [nextSeg]
  split
  · rfl
  · split
    · rfl
    · split <;> rfl

lemma walk_raw (raw raw' : UInt32) (fuel : Nat) (data : List UInt8) :
    (walk raw' fuel data).2 = (walk raw fuel data).2.map (received raw') := by
  induction fuel generalizing data with
  | zero => rfl
  | succ fuel ih =>
    rw [walk, walk, nextSeg_raw raw raw']
    cases nextSeg raw data with
    | short => rfl
    | fault code => rfl
    | seg s rest => simp only [ih, List.map_cons]

theorem decode_raw (raw raw' : UInt32) (data : List UInt8) :
    (decode raw' data).2 = (decode raw data).2.map (received raw') :=
  walk_raw raw raw' _ data

end SegmentCodec
