import Intcp.ByteLabels
import Intcp.HoleRuns
import Intcp.InputLoop
import Intcp.InterestFifo

/-!
# No missing byte is forgotten

Behind the cursor of a requester every byte has arrived, or was announced, or was
passed over by a jump that is taken for no loss, or was noticed to be missing. What
was noticed stays in a hole until its data comes or an interest for it is sent.
Nothing is assumed of the datagrams that come in.
-/

namespace MissingBytes

open FuelledLoop StepRuns Words BlockCache TransControl SegmentCodec DataPlane HoleTracking InterestPlane
  NodeCore CallRules Spans HoleInvariants HoleRuns ByteLabels InterestFifo InputLoop

universe u
variable {F : Type u} {nameLen : Nat} {P : Platform F}

/-- A byte that some hole holds. -/
def Missing (cb : IntcpTransCB F nameLen) (o : Nat) : Prop := o ∈ cover (cb.dataHoles.map span)

def Within (seg : IntcpSeg) (o : Nat) : Prop :=
  seg.rangeStart.toNat ≤ o ∧ o < seg.rangeEnd.toNat

instance (seg : IntcpSeg) (o : Nat) : Decidable (Within seg o) :=
  inferInstanceAs (Decidable (_ ∧ _))

/-- A data segment of the datagram brings the byte or, without a payload, announces it. -/
def Brings (P : Platform F) (data : List UInt8) (o : Nat) : Prop :=
  ∃ seg ∈ (decode P.raw data).2, seg.cmd ≠ intcpCmdInt ∧ Within seg o

/-- An interest of the datagram asks for the byte. -/
def Asks (P : Platform F) (data : List UInt8) (o : Nat) : Prop :=
  ∃ seg ∈ (decode P.raw data).2, seg.cmd = intcpCmdInt ∧ Within seg o

/-- An interest for the byte was sent since. -/
def Asked (P : Platform F) (since cb : IntcpTransCB F nameLen) (o : Nat) : Prop :=
  ∃ data ∈ cb.history.toResponder.drop since.history.toResponder.length, Asks P data o

/-- What has become of a byte since, with what is known of the cursor. -/
structure Follows (P : Platform F) (Place : UInt32 → Prop) (came : Prop) (o : Nat)
    (since cb : IntcpTransCB F nameLen) : Prop where
  requester : cb.nodeRole = .requester
  cursor : Place cb.dataNextRangeStart
  grown : since.history.toResponder <+: cb.history.toResponder
  followed : Missing since o → Missing cb o ∨ came ∨ Asked P since cb o

/-- The fields that only hole handling and the sending of interests write. -/
structure Aside (cb cb' : IntcpTransCB F nameLen) : Prop where
  nodeRole : cb'.nodeRole = cb.nodeRole
  dataHoles : cb'.dataHoles = cb.dataHoles
  dataNextRangeStart : cb'.dataNextRangeStart = cb.dataNextRangeStart
  toResponder : cb'.history.toResponder = cb.history.toResponder

section Following

variable {Place : UInt32 → Prop} {came : Prop} {o : Nat} {since cb cb' : IntcpTransCB F nameLen}

lemma Asked.later {more : List (List UInt8)} (asked : Asked P since cb o)
    (grown : since.history.toResponder <+: cb.history.toResponder)
    (h : cb'.history.toResponder = cb.history.toResponder ++ more) : Asked P since cb' o := by
  obtain ⟨data, hdata, hasks⟩ := asked
  refine ⟨data, ?_, hasks⟩
  rw [h, List.drop_append_of_le_length grown.length_le]
  exact List.mem_append_left _ hdata

lemma Follows.aside (h : Follows P Place came o since cb) (aside : Aside cb cb') :
    Follows P Place came o since cb' := by
  refine ⟨aside.nodeRole.trans h.requester, aside.dataNextRangeStart.symm ▸ h.cursor,
    aside.toResponder ▸ h.grown, fun hmissing => ?_⟩
  rcases h.followed hmissing with hstill | hcame | hasked
  · left
    rw [Missing, aside.dataHoles]
    exact hstill
  · exact .inr (.inl hcame)
  · refine .inr (.inr ?_)
    rw [Asked, aside.toResponder]
    exact hasked

/-- The byte is still missing, unless the interest that is sent asks for it. -/
lemma Follows.sends (h : Follows P Place came o since cb) {s e : UInt32}
    (requester : cb'.nodeRole = .requester)
    (same : cb'.dataNextRangeStart = cb.dataNextRangeStart)
    (sent : cb'.history.toResponder = cb.history.toResponder ++ [intDatagram P cb s e])
    (kept : ¬ (s.toNat ≤ o ∧ o < e.toNat) → Missing cb o → Missing cb' o) :
    Follows P Place came o since cb' := by
  refine ⟨requester, same.symm ▸ h.cursor, ?_, fun hmissing => ?_⟩
  · rw [sent]
    exact h.grown.trans (List.prefix_append _ _)
  · rcases h.followed hmissing with hstill | hcame | hasked
    · by_cases hwithin : s.toNat ≤ o ∧ o < e.toNat
      · obtain ⟨got, hdecode, hcmd, hs, he⟩ := decode_intDatagram (P := P) cb s e
        refine .inr (.inr ⟨intDatagram P cb s e, ?_, got, ?_, hcmd, ?_⟩)
        · rw [sent, List.drop_append_of_le_length h.grown.length_le]
          exact List.mem_append_right _ (List.mem_singleton_self _)
        · rw [hdecode]
          exact List.mem_singleton_self got
        · rw [Within, hs, he]
          exact hwithin
      · exact .inl (kept hwithin hstill)
    · exact .inr (.inl hcame)
    · exact .inr (.inr (hasked.later h.grown sent))

lemma Follows.outputInt (h : Follows P Place came o since cb) (s e : UInt32) :
    Follows P Place came o since (outputInt P cb s e) := by
  rw [outputInt_eq]
  exact h.sends h.requester rfl rfl fun _ hmissing => hmissing

/-- What the loop of `deleteDataHole` leaves of its first hole. -/
lemma cutHoles_cons (rangeStart rangeEnd : UInt32) (hole : Hole) (rest : List Hole) :
    cutHoles rangeStart rangeEnd (hole :: rest) =
      if hole.startByte ≥ rangeEnd then hole :: rest
      else (if hole.endByte ≤ rangeStart then [hole] else cutHole rangeStart rangeEnd hole) ++
        cutHoles rangeStart rangeEnd rest := by
  rw [cutHoles, cutHole]
  split
  · rfl
  · split
    · rfl
    · split
      · split <;> rfl
      · split <;> rfl

lemma mem_cutHole {rangeStart rangeEnd : UInt32} {hole : Hole}
    (outside : ¬ (rangeStart.toNat ≤ o ∧ o < rangeEnd.toNat)) (held : o ∈ (span hole).points) :
    o ∈ cover ((cutHole rangeStart rangeEnd hole).map span) := by
  obtain ⟨hlo, hhi⟩ : hole.startByte.toNat ≤ o ∧ o < hole.endByte.toNat := held
  simp only [cutHole, ge_iff_le, UInt32.le_iff_toNat_le]
  by_cases hhead : o < rangeStart.toNat
  · split <;> split <;> first | omega | simp [Span.points, span, hlo, hhead]
  · have htail : rangeEnd.toNat ≤ o := by omega
    split <;> split <;> first | omega | simp [Span.points, span, hhi, htail]

/-- A cut takes nothing from outside of its range, whatever the range and the list. -/
lemma mem_cutHoles {rangeStart rangeEnd : UInt32} {holes : List Hole}
    (outside : ¬ (rangeStart.toNat ≤ o ∧ o < rangeEnd.toNat)) (held : o ∈ cover (holes.map span)) :
    o ∈ cover ((cutHoles rangeStart rangeEnd holes).map span) := by
  induction holes with
  | nil => exact held
  | cons hole rest ih =>
    rw [cutHoles_cons]
    split
    · exact held
    · rw [List.map_append, cover_append]
      rw [List.map_cons, cover_cons] at held
      rcases held with hhere | hlater
      · left
        split
        · rw [List.map_singleton, cover_cons]
          exact .inl hhere
        · exact mem_cutHole outside hhere
      · exact .inr (ih hlater)

lemma Follows.request (h : Follows P Place came o since cb) (s e : UInt32) :
    Follows P Place came o since (request P cb s e).2 := by
  simp only [InterestPlane.request]
  split
  · exact h
  · split
    · exact h.aside ⟨rfl, rfl, rfl, rfl⟩
    · exact h.aside ⟨rfl, rfl, rfl, rfl⟩

lemma Follows.parseInt (h : Follows P Place came o since cb) (s e : UInt32) :
    Follows P Place came o since (parseInt P cb s e) := by
  refine parseInt_rule (Follows P Place came o since) ?_ ?_ s e ?_ ?_ ?_ ?_ h
  · intro cb s e h
    exact h.aside ⟨rfl, rfl, rfl, rfl⟩
  · intro cb buffer start stop h
    exact h.aside ⟨rfl, rfl, rfl, rfl⟩
  · intro cb ir h _
    exact h.aside ⟨rfl, rfl, rfl, rfl⟩
  · intro cb h
    exact h.aside ⟨rfl, rfl, rfl, rfl⟩
  · intro cb s h _
    exact h.outputInt s e
  · intro cb s h _ _
    exact h.request s e

lemma Follows.updateIntBuf (h : Follows P Place came o since cb) (s e : UInt32) :
    Follows P Place came o since (updateIntBuf P cb s e) := by
  obtain ⟨n, hn⟩ := splitInts_reads (P := P) s e cb cb.intBuf
  rw [InterestPlane.updateIntBuf, hn]
  exact h.aside ⟨rfl, rfl, rfl, rfl⟩

/-- A requester asks for a hole that is not empty. -/
lemma recoverHole_requester (requester : cb.nodeRole = .requester) (hole : Hole) :
    (recoverHole P cb hole).nodeRole = .requester ∧
      (recoverHole P cb hole).dataNextRangeStart = cb.dataNextRangeStart ∧
      (recoverHole P cb hole).history.toResponder = if hole.endByte ≤ hole.startByte then
        cb.history.toResponder else
        cb.history.toResponder ++ [intDatagram P cb hole.startByte hole.endByte] := by
  have hserve : serve P cb hole.startByte hole.endByte = ⟨cb, hole.startByte, hole.startByte⟩ := by
    rw [serve, if_neg fun hrole => hrole requester]
  have hparsed : parseInt P cb hole.startByte hole.endByte =
      if hole.endByte ≤ hole.startByte then cb else outputInt P cb hole.startByte hole.endByte := by
    rw [InterestPlane.parseInt]
    simp only [hserve, requester]
    split
    · rfl
    · rename_i hproper
      rw [if_pos (UInt32.not_le.mp hproper)]
  obtain ⟨n, hn⟩ := splitInts_reads (P := P) hole.startByte hole.endByte
    (parseInt P cb hole.startByte hole.endByte) (parseInt P cb hole.startByte hole.endByte).intBuf
  have hrole : (parseInt P cb hole.startByte hole.endByte).nodeRole = .requester ∧
      (parseInt P cb hole.startByte hole.endByte).dataNextRangeStart = cb.dataNextRangeStart := by
    rw [hparsed]
    split
    · exact ⟨requester, rfl⟩
    · rw [outputInt_eq]
      exact ⟨requester, rfl⟩
  rw [recoverHole, if_pos hrole.1, InterestPlane.updateIntBuf, hn]
  refine ⟨hrole.1, hrole.2, ?_⟩
  rw [hparsed]
  split
  · rfl
  · rw [outputInt_eq]

/-- The loop of `flushDataHoles`: a hole is kept, or an interest for it is sent. -/
lemma Follows.flushHoles (current : UInt32) (kept holes : List Hole)
    (h : Follows P Place came o since { cb with dataHoles := kept ++ holes }) :
    Follows P Place came o since { (flushHoles P current cb holes).1 with
      dataHoles := kept ++ (flushHoles P current cb holes).2 } := by
  induction holes generalizing cb kept with
  | nil => exact h
  | cons hole rest ih =>
    rw [InterestPlane.flushHoles]
    simp only
    split
    · apply ih
      obtain ⟨hrole, hcursor, hsent⟩ := recoverHole_requester (P := P)
        (show (noteErased cb (decide (itimediff current hole.ts ≥
          (intcpSnholeTimeout.toNat : Int)))).nodeRole = .requester from h.requester) hole
      have hother : ¬ (hole.startByte.toNat ≤ o ∧ o < hole.endByte.toNat) →
          o ∈ cover ((kept ++ hole :: rest).map span) → o ∈ cover ((kept ++ rest).map span) := by
        intro outside held
        rw [List.map_append, cover_append] at held ⊢
        rcases held with hbefore | hhere
        · exact .inl hbefore
        · rw [List.map_cons, cover_cons] at hhere
          exact .inr (hhere.resolve_left outside)
      split at hsent
      · rename_i hempty
        rw [UInt32.le_iff_toNat_le] at hempty
        refine ⟨hrole, hcursor.symm ▸ h.cursor, hsent ▸ h.grown, fun hmissing => ?_⟩
        rcases h.followed hmissing with hstill | hcame | hasked
        · exact .inl (hother (by omega) hstill)
        · exact .inr (.inl hcame)
        · refine .inr (.inr ?_)
          rw [Asked, hsent]
          exact hasked
      · exact h.sends hrole hcursor hsent hother
    · have hnext := ih (kept ++ [hole]) (by rwa [List.append_assoc])
      rwa [List.append_assoc] at hnext

lemma Follows.flushDataHoles (h : Follows P Place came o since cb) :
    Follows P Place came o since (flushDataHoles P cb) := by
  have hticked : Follows P Place came o since { tick cb with dataHoles := [] ++ cb.dataHoles } :=
    h.aside ⟨rfl, rfl, rfl, rfl⟩
  exact hticked.flushHoles (getMillisec P cb) []

lemma Follows.flushIntQueue (h : Follows P Place came o since cb) (hqueue : flushIntQueue P cb = some cb') :
    Follows P Place came o since cb' := by
  refine loop_invariant (Follows P Place came o since) (Follows P Place came o since) ?_ ?_ h hqueue
  · intro s t hs hb
    rw [queuePass] at hb
    split at hb
    · cases hb
    · cases hb
      exact hs.aside ⟨rfl, rfl, rfl, rfl⟩
  · intro s r hs hb
    rw [queuePass] at hb
    split at hb <;> cases hb
    exact hs

lemma Follows.chargeLimit (h : Follows P Place came o since cb) (size : UInt32) :
    Follows P Place came o since (chargeLimit cb size) := by
  rw [InterestPlane.chargeLimit]
  split
  · exact h.aside ⟨rfl, rfl, rfl, rfl⟩
  · exact h

/-- What an interest of `intBuf` cuts out of the holes it asks for. -/
lemma Follows.sendInt (h : Follows P Place came o since cb) (seg : IntcpSeg) :
    Follows P Place came o since (sendInt P cb seg) := by
  have hnoted : Follows P Place came o since (noteTimeout cb seg) := h.aside ⟨rfl, rfl, rfl, rfl⟩
  rw [InterestPlane.sendInt, outputInt_eq]
  exact hnoted.sends h.requester rfl rfl fun outside => mem_cutHoles outside

lemma Follows.sendInts (h : Follows P Place came o since cb) (newOutput : Int32) :
    Follows P Place came o since (sendInts P cb newOutput) := by
  have hsent : Follows P Place came o since (flushInts P ⟨cb, [], 0, false⟩ cb.intBuf).cb := by
    refine flushInts_rule (fun fl _ => Follows P Place came o since fl.cb) ?_ ?_ ?_ ?_ ?_ h
    · intro fl seg rest h
      exact h.aside ⟨rfl, rfl, rfl, rfl⟩
    · intro fl seg rest h _
      exact h.aside ⟨rfl, rfl, rfl, rfl⟩
    · intro fl seg rest size h _
      have hticked : Follows P Place came o since (tick fl.cb) := h.aside ⟨rfl, rfl, rfl, rfl⟩
      exact (hticked.chargeLimit size).aside ⟨rfl, rfl, rfl, rfl⟩
    · intro fl seg rest n h _
      have hticked : Follows P Place came o since (tick fl.cb) := h.aside ⟨rfl, rfl, rfl, rfl⟩
      exact (hticked.sendInt seg).aside ⟨rfl, rfl, rfl, rfl⟩
    · intro fl seg rest n size ts h _
      have hticked : Follows P Place came o since (tick fl.cb) := h.aside ⟨rfl, rfl, rfl, rfl⟩
      exact (hticked.chargeLimit size).sendInt seg
  simp only [InterestPlane.sendInts]
  split
  · exact hsent.aside ⟨rfl, rfl, rfl, rfl⟩
  · exact hsent.aside ⟨rfl, rfl, rfl, rfl⟩

lemma Follows.flushIntBuf (h : Follows P Place came o since cb) :
    Follows P Place came o since (flushIntBuf P cb) := by
  rw [InterestPlane.flushIntBuf]
  split
  · exact h
  · apply Follows.sendInts
    exact h.aside ⟨rfl, rfl, rfl, rfl⟩

lemma Follows.flush (h : Follows P Place came o since cb) (hflush : flush P cb = some cb') :
    Follows P Place came o since cb' := by
  refine flush_rule (Follows P Place came o since) ?_ ?_ ?_ ?_ ?_ ?_ h hflush
  · intro cb h
    exact h.aside ⟨rfl, rfl, rfl, rfl⟩
  · intro cb cb' h _ hqueue
    exact h.flushIntQueue hqueue
  · intro cb h
    exact h.flushIntBuf
  · intro cb h _
    exact h.flushDataHoles
  · intro cb h hrole
    exact absurd h.requester hrole
  · intro cb ts h
    exact h.aside ⟨rfl, rfl, rfl, rfl⟩

lemma Follows.update (h : Follows P Place came o since cb) (hupdate : update P cb = some cb') :
    Follows P Place came o since cb' := by
  refine update_rule (Follows P Place came o since) ?_ ?_ ?_ ?_ h hupdate
  · intro cb h
    exact h.aside ⟨rfl, rfl, rfl, rfl⟩
  · intro cb now h
    exact h.aside ⟨rfl, rfl, rfl, rfl⟩
  · intro cb updated next h
    exact h.aside ⟨rfl, rfl, rfl, rfl⟩
  · intro cb cb' h hflush
    exact h.flush hflush

lemma Follows.notifyNewData (h : Follows P Place came o since cb) (buffer : Buffer) (s e : UInt32) :
    Follows P Place came o since (notifyNewData P cb buffer s e) := by
  have hreleased : Follows P Place came o since (releaseInts P buffer s e cb cb.pendingInts).1 :=
    releaseInts_rule (Follows P Place came o since) (fun _ _ _ _ h => h.aside ⟨rfl, rfl, rfl, rfl⟩)
      buffer s e h cb.pendingInts
  exact hreleased.aside ⟨rfl, rfl, rfl, rfl⟩

lemma Follows.recv (h : Follows P Place came o since cb) (maxBufSize : Int32) :
    Follows P Place came o since (recv cb maxBufSize).2 := by
  rw [NodeCore.recv]
  split
  · exact h
  · split
    · split
      · exact h.aside ⟨rfl, rfl, rfl, rfl⟩
      · split
        · exact h.aside ⟨rfl, rfl, rfl, rfl⟩
        · exact h
    · exact h.aside ⟨rfl, rfl, rfl, rfl⟩

lemma Follows.inputInt (h : Follows P Place came o since cb) (s : IntcpSeg) :
    Follows P Place came o since (inputInt P cb s) := by
  have hset : ∀ owd rate,
      Follows P Place came o since { tick cb with intHopOwd := owd, rmtSendRate := rate } :=
    fun _ _ => h.aside ⟨rfl, rfl, rfl, rfl⟩
  simp only [NodeCore.inputInt]
  split
  · exact hset _ _
  · exact (hset _ _).parseInt s.rangeStart s.rangeEnd

lemma Follows.measureHop (h : Follows P Place came o since cb) (current : UInt32) (s : IntcpSeg) :
    Follows P Place came o since (measureHop P cb current s) := by
  refine measureHop_rule (Follows P Place came o since) ?_ ?_ ?_ h current s
  · intro cb h
    exact h.aside ⟨rfl, rfl, rfl, rfl⟩
  · intro cb cc rest h
    exact h.aside ⟨rfl, rfl, rfl, rfl⟩
  · intro cb h _
    exact h.outputInt 0 0

/-- A requester detects holes without a word. -/
lemma detect_requester (requester : cb.nodeRole = .requester) (s : IntcpSeg) :
    (detect P cb s).nodeRole = .requester ∧
      (detect P cb s).history.toResponder = cb.history.toResponder := by
  simp only [detect, detectDataHole]
  split
  · exact ⟨requester, rfl⟩
  · split
    · exact ⟨requester, rfl⟩
    · split
      · exact ⟨requester, rfl⟩
      · split
        · rename_i hmid
          exact absurd (hmid.symm.trans requester) (by decide)
        · exact ⟨requester, rfl⟩

lemma missing_detect (cb : IntcpTransCB F nameLen) (s : IntcpSeg) (hmissing : Missing cb o) :
    Missing (detect P cb s) o ∨ Within s o := by
  have hdetect : (detect P cb s).dataHoles =
      (detectDataHole P cb s.rangeStart s.rangeEnd).2.dataHoles := rfl
  rw [Missing, hdetect]
  rcases detectDataHole_cases (P := P) cb s.rangeStart s.rangeEnd with
    ⟨_, hholes, _⟩ | ⟨_, hholes, _⟩ | ⟨_, _, hholes, _⟩ | ⟨_, _, hholes, _⟩
  · exact .inl (hholes ▸ hmissing)
  · by_cases hwithin : Within s o
    · exact .inr hwithin
    · exact .inl (hholes ▸ mem_cutHoles hwithin hmissing)
  · exact .inl (hholes ▸ hmissing)
  · left
    rw [hholes, List.map_append, cover_append]
    exact .inl hmissing

lemma Follows.detect (h : Follows P Place came o since cb) (s : IntcpSeg)
    (moved : Place (detect P cb s).dataNextRangeStart) (brought : Within s o → came) :
    Follows P Place came o since (detect P cb s) := by
  obtain ⟨hrole, hsame⟩ := detect_requester (P := P) h.requester s
  refine ⟨hrole, moved, hsame ▸ h.grown, fun hmissing => ?_⟩
  rcases h.followed hmissing with hstill | hcame | hasked
  · rcases missing_detect (P := P) cb s hstill with hkept | hwithin
    · exact .inl hkept
    · exact .inr (.inl (brought hwithin))
  · exact .inr (.inl hcame)
  · refine .inr (.inr ?_)
    rw [Asked, hsame]
    exact hasked

lemma parseData_aside (cb : IntcpTransCB F nameLen) (seg : IntcpSeg) (header : Bool) :
    Aside cb (parseData cb seg header) := by
  have hsent : Aside cb (if cb.nodeRole ≠ .requester then enqueue cb seg else cb) := by
    split
    · exact ⟨rfl, rfl, rfl, rfl⟩
    · exact ⟨rfl, rfl, rfl, rfl⟩
  simp only [parseData]
  cases header with
  | true => exact hsent
  | false => exact ⟨hsent.nodeRole, hsent.dataHoles, hsent.dataNextRangeStart, hsent.toResponder⟩

/-- Behind hole detection a data segment does nothing to the holes. -/
lemma inputPush_aside (cb : IntcpTransCB F nameLen) (current : UInt32) (s : IntcpSeg) :
    Aside (NodeCore.detect P (NodeCore.measureHop P cb current s) s)
      (inputPush P cb current s).2 := by
  simp only [inputPush]
  split
  · exact parseData_aside _ _ true
  · split
    · exact ⟨rfl, rfl, rfl, rfl⟩
    · exact parseData_aside _ _ false

lemma Follows.input (h : Follows P Place came o since cb) (free : ∀ c, Place c) {data : List UInt8}
    (brought : Brings P data o → came) : Follows P Place came o since (input P cb data).2 := by
  refine input_rule (Follows P Place came o since) (fun s => s ∈ (decode P.raw data).2) ?_ ?_ ?_ data
    (fun _ hs => hs) h
  · intro cb h
    exact h.aside ⟨rfl, rfl, rfl, rfl⟩
  · intro cb s h _ _
    exact h.inputInt s
  · intro cb current s h hs hcmd
    have hdetected := (h.measureHop current s).detect s (free _) fun hwithin =>
      brought ⟨s, hs, hcmd ▸ by decide, hwithin⟩
    exact hdetected.aside (inputPush_aside cb current s)

/-- The step lemma: a call keeps a missing byte, brings it or asks for it, and only `input` moves
the cursor. -/
theorem Follows.step {op : Op nameLen} (h : Follows P Place came o since cb)
    (brought : ∀ data, op = .input data → (∀ c, Place c) ∧ (Brings P data o → came))
    (hstep : op.step P cb = some cb') : Follows P Place came o since cb' := by
  rw [Op.step] at hstep
  split at hstep
  · cases hstep
    exact h
  · cases op with
    | input data =>
      cases hstep
      exact h.input (brought data rfl).1 (brought data rfl).2
    | request s e =>
      cases hstep
      exact h.request s e
    | parseInt s e =>
      cases hstep
      exact h.parseInt s e
    | notifyNewData buffer s e =>
      cases hstep
      exact h.notifyNewData buffer s e
    | insertData buffer s e =>
      obtain ⟨cache, _, rfl⟩ := Option.map_eq_some_iff.mp hstep
      apply Follows.notifyNewData
      exact h.aside ⟨rfl, rfl, rfl, rfl⟩
    | sendData buffer s e =>
      cases hstep
      rw [sendData_eq]
      exact h.aside ⟨rfl, rfl, rfl, rfl⟩
    | sendDataHeader s e =>
      cases hstep
      exact h.aside ⟨rfl, rfl, rfl, rfl⟩
    | parseData seg header =>
      cases hstep
      exact h.aside (parseData_aside cb seg header)
    | recv maxBufSize =>
      cases hstep
      exact h.recv maxBufSize
    | flush => exact h.flush hstep
    | update => exact h.update hstep
    | cacheInsert name s e dataBuf =>
      obtain ⟨cache, _, rfl⟩ := Option.map_eq_some_iff.mp hstep
      exact h.aside ⟨rfl, rfl, rfl, rfl⟩
    | cacheRead name s e =>
      cases hstep
      exact h.aside ⟨rfl, rfl, rfl, rfl⟩

end Following

/-- A segment so far ahead that the bytes in between are taken for no loss. -/
def Jumps (cb : IntcpTransCB F nameLen) (s : IntcpSeg) (o : Nat) : Prop :=
  cb.dataNextRangeStart.toNat ≤ o ∧ o < s.rangeStart.toNat ∧
    AbnormalHole cb.dataNextRangeStart s.rangeStart

/-- The loop of `input` comes to such a segment. -/
def Skips (P : Platform F) (cb : IntcpTransCB F nameLen) (segs : List IntcpSeg) (o : Nat) : Prop :=
  ∃ before s after, segs = before ++ s :: after ∧ (handleAll P cb before).1 = true ∧
    s.cmd ≠ intcpCmdInt ∧ Jumps (handleAll P cb before).2 s o

/-- Interests leave the holes alone. -/
lemma handle_interest (cb : IntcpTransCB F nameLen) {s : IntcpSeg} (interest : s.cmd = intcpCmdInt) :
    SameHoles cb (handle P cb s).2 := by
  have hset : ∀ owd rate,
      SameHoles cb { tick (tick cb) with intHopOwd := owd, rmtSendRate := rate } :=
    fun _ _ => ⟨rfl, rfl⟩
  rw [handle, if_pos interest]
  simp only [inputInt]
  split
  · exact hset _ _
  · exact parseInt_sameHoles (hset _ _) s.rangeStart s.rangeEnd

/-- Of a data segment the holes see what `detectDataHole` does. -/
lemma handle_data (cb : IntcpTransCB F nameLen) {s : IntcpSeg} (data : s.cmd ≠ intcpCmdInt) :
    ∃ here, SameHoles cb here ∧
      SameHoles (detectDataHole P here s.rangeStart s.rangeEnd).2 (handle P cb s).2 := by
  refine ⟨measureHop P (tick cb) (getMillisec P cb) s, measureHop_sameHoles (tick cb) _ s, ?_⟩
  rw [handle, if_neg data]
  exact inputPush_sameHoles (tick cb) _ s

section Passing

variable {o : Nat}

lemma missing_detectDataHole (cb : IntcpTransCB F nameLen) (s : IntcpSeg) (hmissing : Missing cb o) :
    Missing (detectDataHole P cb s.rangeStart s.rangeEnd).2 o ∨ Within s o :=
  missing_detect cb s hmissing

lemma handle_missing (cb : IntcpTransCB F nameLen) (s : IntcpSeg) (hmissing : Missing cb o) :
    Missing (handle P cb s).2 o ∨ s.cmd ≠ intcpCmdInt ∧ Within s o := by
  by_cases hcmd : s.cmd = intcpCmdInt
  · left
    rw [Missing, (handle_interest cb hcmd).1]
    exact hmissing
  · obtain ⟨here, hbefore, hafter⟩ := handle_data (P := P) cb hcmd
    have hhere : Missing here o := by
      rw [Missing, hbefore.1]
      exact hmissing
    rcases missing_detectDataHole (P := P) here s hhere with hkept | hwithin
    · left
      rw [Missing, hafter.1]
      exact hkept
    · exact .inr ⟨hcmd, hwithin⟩

/-- A byte that the cursor passes over is brought, missed or skipped. -/
lemma handle_passes (cb : IntcpTransCB F nameLen) (s : IntcpSeg)
    (behind : o < (handle P cb s).2.dataNextRangeStart.toNat) :
    o < cb.dataNextRangeStart.toNat ∨ Missing (handle P cb s).2 o ∨
      s.cmd ≠ intcpCmdInt ∧ (Within s o ∨ Jumps cb s o) := by
  by_cases hcmd : s.cmd = intcpCmdInt
  · rw [(handle_interest cb hcmd).2] at behind
    exact .inl behind
  · obtain ⟨here, hbefore, hafter⟩ := handle_data (P := P) cb hcmd
    have hcursor := hbefore.2
    rw [hafter.2] at behind
    by_cases hpassed : o < cb.dataNextRangeStart.toNat
    · exact .inl hpassed
    right
    by_cases hwithin : Within s o
    · exact .inr ⟨hcmd, .inl hwithin⟩
    rw [Within] at hwithin
    rcases detectDataHole_cases (P := P) here s.rangeStart s.rangeEnd with
      ⟨hat, _, hnext⟩ | ⟨_, _, hnext⟩ | ⟨_, habnormal, _, hnext⟩ | ⟨_, _, hholes, hnext⟩
    · rw [hnext] at behind
      rw [hat, hcursor] at hwithin
      omega
    · rw [hnext, hcursor] at behind
      exact absurd behind hpassed
    · rw [hnext] at behind
      rw [hcursor] at habnormal
      exact .inr ⟨hcmd, .inr ⟨by omega, by omega, habnormal⟩⟩
    · rw [hnext] at behind
      left
      rw [Missing, hafter.1, hholes, List.map_append, cover_append, List.map_singleton, cover_cons]
      refine .inr (.inl ⟨?_, ?_⟩)
      · rw [hcursor]
        exact Nat.not_lt.mp hpassed
      · simp only [span]
        omega

lemma handleAll_missing (cb : IntcpTransCB F nameLen) (segs : List IntcpSeg) (hmissing : Missing cb o) :
    Missing (handleAll P cb segs).2 o ∨ ∃ s ∈ segs, s.cmd ≠ intcpCmdInt ∧ Within s o := by
  induction segs generalizing cb with
  | nil => exact .inl hmissing
  | cons s rest ih =>
    rw [handleAll]
    rcases handle_missing (P := P) cb s hmissing with hkept | hbrought
    · split
      · rcases ih _ hkept with hlater | ⟨x, hx, hbrings⟩
        · exact .inl hlater
        · exact .inr ⟨x, List.mem_cons_of_mem s hx, hbrings⟩
      · exact .inl hkept
    · exact .inr ⟨s, List.mem_cons_self, hbrought⟩

/-- The same for a whole datagram. -/
lemma handleAll_passes (cb : IntcpTransCB F nameLen) (segs : List IntcpSeg)
    (behind : o < (handleAll P cb segs).2.dataNextRangeStart.toNat) :
    o < cb.dataNextRangeStart.toNat ∨ Missing (handleAll P cb segs).2 o ∨
      (∃ s ∈ segs, s.cmd ≠ intcpCmdInt ∧ Within s o) ∨ Skips P cb segs o := by
  induction segs generalizing cb with
  | nil => exact .inl behind
  | cons s rest ih =>
    have hhere : o < (handle P cb s).2.dataNextRangeStart.toNat →
        o < cb.dataNextRangeStart.toNat ∨ Missing (handle P cb s).2 o ∨
          (∃ x ∈ s :: rest, x.cmd ≠ intcpCmdInt ∧ Within x o) ∨ Skips P cb (s :: rest) o := by
      intro hbehind
      rcases handle_passes (P := P) cb s hbehind with hpassed | hmissing | ⟨hcmd, hwithin | hjumps⟩
      · exact .inl hpassed
      · exact .inr (.inl hmissing)
      · exact .inr (.inr (.inl ⟨s, List.mem_cons_self, hcmd, hwithin⟩))
      · exact .inr (.inr (.inr ⟨[], s, rest, rfl, rfl, hcmd, hjumps⟩))
    rw [handleAll] at behind ⊢
    cases hflag : (handle P cb s).1 with
    | false =>
      rw [hflag] at behind
      exact hhere behind
    | true =>
      rw [hflag] at behind
      rcases ih _ behind with hpassed | hmissing | ⟨x, hx, hbrings⟩ | ⟨before, x, after, hsplit, hgo, hjumps⟩
      · rcases hhere hpassed with hearlier | hmissing | hrest
        · exact .inl hearlier
        · rcases handleAll_missing (P := P) _ rest hmissing with hkept | ⟨x, hx, hbrings⟩
          · exact .inr (.inl hkept)
          · exact .inr (.inr (.inl ⟨x, List.mem_cons_of_mem s hx, hbrings⟩))
        · exact .inr (.inr hrest)
      · exact .inr (.inl hmissing)
      · exact .inr (.inr (.inl ⟨x, List.mem_cons_of_mem s hx, hbrings⟩))
      · refine .inr (.inr (.inr ⟨s :: before, x, after, congrArg (s :: ·) hsplit, ?_, ?_⟩))
        · rw [handleAll, hflag]
          exact hgo
        · rw [handleAll, hflag]
          exact hjumps

end Passing

/-- Some datagram of the run brings or announces the byte. -/
def Brought (P : Platform F) (ops : List (Op nameLen)) (o : Nat) : Prop :=
  ∃ data, Op.input data ∈ ops ∧ Brings P data o

/-- Some datagram of the run makes the cursor jump over the byte. -/
def Skipped (P : Platform F) (start : IntcpTransCB F nameLen) (ops : List (Op nameLen)) (o : Nat) :
    Prop :=
  ∃ before data after cb, ops = before ++ .input data :: after ∧
    run (Op.step P) start before = some cb ∧ cb.state ≠ -1 ∧ Skips P cb (decode P.raw data).2 o

/-- At some point of the run the byte was known to be missing, and since then it has been, or an
interest for it was sent. -/
def Pursued (P : Platform F) (start : IntcpTransCB F nameLen) (ops : List (Op nameLen))
    (cb : IntcpTransCB F nameLen) (o : Nat) : Prop :=
  ∃ before after since, ops = before ++ after ∧ run (Op.step P) start before = some since ∧
    Missing since o ∧ (Missing cb o ∨ Asked P since cb o)

section Runs

variable {start cb cb' : IntcpTransCB F nameLen} {ops : List (Op nameLen)} {o : Nat}

/-- The run lemma: what was missing still is, unless its data came or it was asked for. -/
lemma run_follows (requester : start.nodeRole = .requester)
    (hrun : run (Op.step P) start ops = some cb) :
    Follows P (fun _ => True) (Brought P ops o) o start cb := by
  refine run_invariant_all (Follows P (fun _ => True) (Brought P ops o) o start)
    ?_ ?_ (show ∀ op ∈ ops, op ∈ ops from fun _ hop => hop) hrun
  · intro s t op h hop hstep
    refine h.step (fun data hinput => ⟨fun _ => trivial, fun hbrings => ?_⟩) hstep
    exact ⟨data, hinput ▸ hop, hbrings⟩
  · exact ⟨requester, trivial, List.prefix_refl _, .inl⟩

/-- Only `input` moves the cursor. -/
lemma step_cursor (requester : cb.nodeRole = .requester) {op : Op nameLen}
    (silent : ∀ data, op ≠ .input data) (hstep : op.step P cb = some cb') :
    cb'.dataNextRangeStart = cb.dataNextRangeStart := by
  have h : Follows P (· = cb.dataNextRangeStart) True 0 cb cb :=
    ⟨requester, rfl, List.prefix_refl _, .inl⟩
  exact (h.step (fun data hinput => absurd hinput (silent data)) hstep).cursor

lemma input_passes (cb : IntcpTransCB F nameLen) (data : List UInt8)
    (behind : o < (input P cb data).2.dataNextRangeStart.toNat) :
    o < cb.dataNextRangeStart.toNat ∨ Missing (input P cb data).2 o ∨ Brings P data o ∨
      Skips P cb (decode P.raw data).2 o := by
  obtain ⟨n, hn⟩ := input_handleAll (P := P) cb data
  rw [hn] at behind ⊢
  exact handleAll_passes cb _ behind

/-- What the cursor has passed over was brought, skipped or at some point missing. -/
lemma run_passes (requester : start.nodeRole = .requester)
    (hrun : run (Op.step P) start ops = some cb) (behind : o < cb.dataNextRangeStart.toNat) :
    o < start.dataNextRangeStart.toNat ∨ Brought P ops o ∨ Skipped P start ops o ∨
      ∃ before after since, ops = before ++ after ∧ run (Op.step P) start before = some since ∧
        Missing since o := by
  induction ops using List.reverseRecOn generalizing cb with
  | nil =>
    cases hrun
    exact .inl behind
  | append_singleton ops op ih =>
    have hlast := hrun
    rw [run_snoc] at hlast
    obtain ⟨mid, hmid, hstep⟩ := Option.bind_eq_some_iff.mp hlast
    have hrole : mid.nodeRole = .requester := (run_follows (o := o) requester hmid).requester
    have hearlier : o < mid.dataNextRangeStart.toNat →
        o < start.dataNextRangeStart.toNat ∨ Brought P (ops ++ [op]) o ∨
          Skipped P start (ops ++ [op]) o ∨
          ∃ before after since, ops ++ [op] = before ++ after ∧
            run (Op.step P) start before = some since ∧ Missing since o := by
      intro hbehind
      rcases ih hmid hbehind with hstart | ⟨data, hdata, hbrings⟩ |
        ⟨before, data, after, here, rfl, hhere, halive, hskips⟩ | ⟨before, after, since, rfl, hsince, hmissing⟩
      · exact .inl hstart
      · exact .inr (.inl ⟨data, List.mem_append_left _ hdata, hbrings⟩)
      · exact .inr (.inr (.inl ⟨before, data, after ++ [op], here, by simp, hhere, halive, hskips⟩))
      · exact .inr (.inr (.inr ⟨before, after ++ [op], since, by simp, hsince, hmissing⟩))
    by_cases hinput : ∃ data, op = .input data
    · obtain ⟨data, rfl⟩ := hinput
      rw [Op.step] at hstep
      split at hstep
      · cases hstep
        exact hearlier behind
      · rename_i halive
        cases hstep
        rcases input_passes mid data behind with hbefore | hmissing | hbrings | hskips
        · exact hearlier hbefore
        · refine .inr (.inr (.inr ⟨ops ++ [.input data], [], _, by simp, ?_, hmissing⟩))
          exact hrun
        · exact .inr (.inl ⟨data, List.mem_append_right _ (List.mem_singleton_self _), hbrings⟩)
        · exact .inr (.inr (.inl ⟨ops, data, [], mid, rfl, hmid, halive, hskips⟩))
    · have hsame := step_cursor hrole (fun data h => hinput ⟨data, h⟩) hstep
      exact hearlier (hsame ▸ behind)

end Runs

/-- Whatever datagrams come in and whatever calls are made: a byte behind the cursor of a requester
was brought, or skipped, or it was noticed to be missing and from then on is missing or has been
asked for. -/
theorem run_pursuesMissing (P : Platform F) (nameChars : Vector UInt8 nameLen)
    (cache : Cache nameLen) (ops : List (Op nameLen)) {cb : IntcpTransCB F nameLen}
    (hrun : run (Op.step P) (IntcpTransCB.create P .requester nameChars cache) ops = some cb)
    {o : Nat} (behind : o < cb.dataNextRangeStart.toNat) :
    Brought P ops o ∨
      Skipped P (IntcpTransCB.create P .requester nameChars cache) ops o ∨
      Pursued P (IntcpTransCB.create P .requester nameChars cache) ops cb o := by
  rcases run_passes rfl hrun behind with hstart | hbrought | hskipped |
    ⟨before, after, since, rfl, hsince, hmissing⟩
  · exact absurd hstart (Nat.not_lt_zero o)
  · exact .inl hbrought
  · exact .inr (.inl hskipped)
  · have hrole : since.nodeRole = .requester := (run_follows (o := o) rfl hsince).requester
    rw [run_append, hsince] at hrun
    rcases (run_follows hrole hrun).followed hmissing with hstill | ⟨data, hdata, hbrings⟩ | hasked
    · exact .inr (.inr ⟨before, after, since, rfl, hsince, hmissing, .inl hstill⟩)
    · exact .inl ⟨data, List.mem_append_right _ hdata, hbrings⟩
    · exact .inr (.inr ⟨before, after, since, rfl, hsince, hmissing, .inr hasked⟩)

/-- A clock by which the next flush finds a hole ripe. -/
def patientClock : Platform Rat := Platform.exact fun n => UInt32.ofNat (20 * n)

/-- Bytes 10 to 14 are lost and asked for. -/
def lossOps : List (Op 1) :=
  [.input (frame (pushSeg patientClock 0 10 0 [] length_header)),
    .input (frame (pushSeg patientClock 15 20 0 [] length_header)), .update]

theorem run_pursuesMissing_loss : ∃ cb,
    run (Op.step patientClock) (IntcpTransCB.create patientClock .requester #v[110]
      (Cache.fresh fun _ _ => 0)) lossOps = some cb ∧ cb.dataHoles = [] ∧
    (Brought patientClock lossOps 12 ∨
      Skipped patientClock (IntcpTransCB.create patientClock .requester #v[110]
        (Cache.fresh fun _ _ => 0)) lossOps 12 ∨
      Pursued patientClock (IntcpTransCB.create patientClock .requester #v[110]
        (Cache.fresh fun _ _ => 0)) lossOps cb 12) := by
  have hreturns : (run (Op.step patientClock) (IntcpTransCB.create patientClock .requester #v[110]
      (Cache.fresh fun _ _ => 0)) lossOps).any
      (fun cb => decide (12 < cb.dataNextRangeStart.toNat ∧ cb.dataHoles = [])) = true := by
    decide +kernel
  obtain ⟨cb, hrun, hreached⟩ := Option.any_eq_true _ _ |>.mp hreturns
  obtain ⟨hbehind, hholes⟩ := of_decide_eq_true hreached
  exact ⟨cb, hrun, hholes, run_pursuesMissing _ _ _ _ hrun hbehind⟩

end MissingBytes
