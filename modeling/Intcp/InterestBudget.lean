import Intcp.InterestFifo

/-!
# What a requester may ask for

The interests in the `intBuf` of a requester are never retired: data that arrives
takes nothing out of it. Each sending is charged to `intOutputLimit`, which only a
known `srtt` refills, and no call of the node sets `srtt`. So the bytes that the
buffered interests ask for, counted with every retransmission, stay within the
`INTCP_SNDQ_MAX` that the limit starts with, over the whole life of the node.
-/

namespace InterestBudget

open StepRuns Words BlockCache TransControl SegmentCodec RateControl DataPlane HoleTracking
  InterestPlane NodeCore CallRules ByteAccounts InterestFifo

universe u
variable {F : Type u} {nameLen : Nat} {P : Platform F}

/-- The bytes that the interests asked for, counted as often as they were sent. -/
def spent (segs : List IntcpSeg) : Nat :=
  (segs.map fun seg => seg.xmit.toNat * (seg.rangeEnd.toNat - seg.rangeStart.toNat)).sum

def sends (segs : List IntcpSeg) : Nat := (segs.map fun seg => seg.xmit.toNat).sum

/-- The interests that were sent at least once. -/
def askedOnce (segs : List IntcpSeg) : List IntcpSeg := segs.filter fun seg => 0 < seg.xmit

/-- The growth of `srtt` and `rto` in a flush with timeouts. -/
def expand (P : Platform F) (rtt : Int32) : Int32 :=
  P.toInt (fmul P (fofInt P rtt.toInt) (P.single (P.decimal 11 1)))

/-- An earlier state of the node: the bytes in `intBuf`, and what `request` had accepted. -/
structure Mark where
  bytes : Nat
  accepted : List ByteRange

/-- The law, of the fields that it is about; `timeouts` are those of the flush in progress. -/
structure Law (P : Platform F) (mark : Mark) (role : Role) (state srtt rto conseqTimeout limit : Int32)
    (timeouts : Nat) (buf : List IntcpSeg) (queue accepted : List ByteRange) : Prop where
  requester : role = .requester
  still : srtt = 0
  nonneg : 0 ≤ limit.toInt
  within : spent buf + limit.toInt ≤ intcpSndqMax.toNat
  exact : state ≠ -1 → spent buf + limit.toInt = intcpSndqMax.toNat
  proper : ∀ seg ∈ buf, seg.rangeStart < seg.rangeEnd
  tries : ∀ seg ∈ buf, seg.xmit ≤ intcpDeadlink
  dead : state = -1 → ∃ seg ∈ buf, seg.xmit = intcpDeadlink
  kept : intOffsets buf ++ queueOffsets queue = queueOffsets accepted
  backoff : rto = (expand P)^[min conseqTimeout.toInt.toNat 9] intcpRtoDef.toInt32
  counted : 0 ≤ conseqTimeout.toInt ∧ conseqTimeout.toInt + timeouts ≤ sends buf
  grown : mark.bytes ≤ (intOffsets buf).length
  closed : intcpIntbMax.toNat ≤ mark.bytes → queueSize mark.accepted < 2 ^ 31 →
    accepted = mark.accepted

/-- The law where `buf` stands for the buffer. -/
abbrev LawWith (P : Platform F) (mark : Mark) (cb : IntcpTransCB F nameLen) (timeouts : Nat)
    (buf : List IntcpSeg) : Prop :=
  Law P mark cb.nodeRole cb.state cb.srtt cb.rto cb.conseqTimeout cb.intOutputLimit timeouts buf
    cb.intQueue cb.history.accepted

structure Lawful (P : Platform F) (mark : Mark) (cb : IntcpTransCB F nameLen) : Prop where
  acc : Accounts cb
  law : LawWith P mark cb 0 cb.intBuf

variable {mark : Mark}

/-- A flush that ends early leaves its timeouts uncounted. -/
lemma Law.forget {role : Role} {state srtt rto conseqTimeout limit : Int32} {n : Nat}
    {buf : List IntcpSeg} {queue accepted : List ByteRange}
    (law : Law P mark role state srtt rto conseqTimeout limit n buf queue accepted) :
    Law P mark role state srtt rto conseqTimeout limit 0 buf queue accepted := by
  obtain ⟨hnonneg, hcounted⟩ := law.counted
  exact ⟨law.requester, law.still, law.nonneg, law.within, law.exact, law.proper, law.tries, law.dead,
    law.kept, law.backoff, ⟨hnonneg, by omega⟩, law.grown, law.closed⟩

lemma spent_cons (seg : IntcpSeg) (segs : List IntcpSeg) : spent (seg :: segs) =
    seg.xmit.toNat * (seg.rangeEnd.toNat - seg.rangeStart.toNat) + spent segs := by
  rw [spent, List.map_cons, List.sum_cons]
  rfl

lemma spent_append (a b : List IntcpSeg) : spent (a ++ b) = spent a + spent b := by
  rw [spent, List.map_append, List.sum_append]
  rfl

lemma sends_cons (seg : IntcpSeg) (segs : List IntcpSeg) :
    sends (seg :: segs) = seg.xmit.toNat + sends segs := by
  rw [sends, List.map_cons, List.sum_cons]
  rfl

lemma sends_append (a b : List IntcpSeg) : sends (a ++ b) = sends a + sends b := by
  rw [sends, List.map_append, List.sum_append]
  rfl

lemma intOffsets_cons (seg : IntcpSeg) (segs : List IntcpSeg) :
    intOffsets (seg :: segs) = offsets seg.rangeStart seg.rangeEnd ++ intOffsets segs := rfl

lemma intOffsets_append (a b : List IntcpSeg) :
    intOffsets (a ++ b) = intOffsets a ++ intOffsets b := by
  rw [intOffsets, List.flatMap_append]
  rfl

lemma intOffsets_length (segs : List IntcpSeg) : (intOffsets segs).length = intTotal segs := by
  simp only [intOffsets, intTotal, List.length_flatMap, length_offsets]

lemma queueOffsets_snoc (queue : List ByteRange) (r : ByteRange) :
    queueOffsets (queue ++ [r]) = queueOffsets queue ++ offsets r.startByte r.endByte := by
  rw [queueOffsets, List.flatMap_append, List.flatMap_singleton]
  rfl

/-- What was sent once counts in full. -/
lemma intTotal_askedOnce_le (segs : List IntcpSeg) : intTotal (askedOnce segs) ≤ spent segs := by
  induction segs with
  | nil => exact Nat.le_refl 0
  | cons seg rest ih =>
    rw [spent_cons, askedOnce, List.filter_cons]
    split
    · rename_i hsent
      have hpos : 0 < seg.xmit.toNat := UInt32.lt_iff_toNat_lt.mp (of_decide_eq_true hsent)
      have hfull := Nat.le_mul_of_pos_left (seg.rangeEnd.toNat - seg.rangeStart.toNat) hpos
      have hcons : intTotal (seg :: askedOnce rest) =
          (seg.rangeEnd.toNat - seg.rangeStart.toNat) + intTotal (askedOnce rest) := by
        rw [intTotal, List.map_cons, List.sum_cons]
        rfl
      exact hcons ▸ Nat.add_le_add hfull ih
    · exact ih.trans (Nat.le_add_left _ _)

/-- Every sending asks for a byte at least. -/
lemma sends_le_spent {segs : List IntcpSeg} (proper : ∀ seg ∈ segs, seg.rangeStart < seg.rangeEnd) :
    sends segs ≤ spent segs := by
  induction segs with
  | nil => exact Nat.le_refl 0
  | cons seg rest ih =>
    have hproper := UInt32.lt_iff_toNat_lt.mp (proper seg List.mem_cons_self)
    have hbyte := Nat.le_mul_of_pos_right seg.xmit.toNat (Nat.sub_pos_of_lt hproper)
    have hrest := ih fun s hs => proper s (List.mem_cons_of_mem _ hs)
    rw [sends_cons, spent_cons]
    omega

/-- The pieces of an interest: `[a, b)` in order, each sent as often as the whole. -/
def Cut (xmit : UInt32) : UInt32 → List IntcpSeg → UInt32 → Prop
  | a, [], b => a = b
  | a, seg :: rest, b =>
    seg.rangeStart = a ∧ a < seg.rangeEnd ∧ seg.xmit = xmit ∧ Cut xmit seg.rangeEnd rest b

lemma splitInt_cut {seg : IntcpSeg} {s e : UInt32} (current : UInt32) (proper : s < e)
    (meets : seg.rangeStart < e ∧ s < seg.rangeEnd) (whole : seg.rangeStart < seg.rangeEnd) :
    Cut seg.xmit seg.rangeStart (splitInt seg s e current) seg.rangeEnd := by
  obtain ⟨hstart, hend⟩ := meets
  rw [splitInt]
  split
  · split
    · exact ⟨rfl, whole, rfl, rfl⟩
    · rename_i hs
      exact ⟨rfl, UInt32.not_le.mp hs, rfl, rfl, hend, rfl, rfl⟩
  · rename_i he
    rw [UInt32.not_le] at he
    split
    · exact ⟨rfl, hstart, rfl, rfl, he, rfl, rfl⟩
    · rename_i hs
      exact ⟨rfl, UInt32.not_le.mp hs, rfl, rfl, proper, rfl, rfl, he, rfl, rfl⟩

lemma Cut.le {xmit a b : UInt32} {pieces : List IntcpSeg} (cut : Cut xmit a pieces b) :
    a.toNat ≤ b.toNat := by
  induction pieces generalizing a with
  | nil => exact Nat.le_of_eq (congrArg UInt32.toNat cut)
  | cons p rest ih =>
    obtain ⟨_, hproper, _, hrest⟩ := cut
    exact Nat.le_trans (Nat.le_of_lt (UInt32.lt_iff_toNat_lt.mp hproper)) (ih hrest)

lemma Cut.spent {xmit a b : UInt32} {pieces : List IntcpSeg} (cut : Cut xmit a pieces b) :
    spent pieces = xmit.toNat * (b.toNat - a.toNat) := by
  induction pieces generalizing a with
  | nil =>
    obtain rfl : a = b := cut
    rw [Nat.sub_self, Nat.mul_zero]
    rfl
  | cons p rest ih =>
    obtain ⟨hstart, hproper, hxmit, hrest⟩ := cut
    have hlt := UInt32.lt_iff_toNat_lt.mp hproper
    have hle := hrest.le
    have hlen : b.toNat - a.toNat = (p.rangeEnd.toNat - a.toNat) + (b.toNat - p.rangeEnd.toNat) := by
      omega
    rw [spent_cons, hxmit, hstart, ih hrest, hlen, Nat.mul_add]

lemma Cut.offsets {xmit a b : UInt32} {pieces : List IntcpSeg} (cut : Cut xmit a pieces b) :
    intOffsets pieces = offsets a b := by
  induction pieces generalizing a with
  | nil =>
    obtain rfl : a = b := cut
    exact (offsets_self a).symm
  | cons p rest ih =>
    obtain ⟨rfl, hproper, _, hrest⟩ := cut
    rw [intOffsets_cons, ih hrest]
    exact offsets_append (Nat.le_of_lt (UInt32.lt_iff_toNat_lt.mp hproper)) hrest.le

lemma Cut.mem {xmit a b : UInt32} {pieces : List IntcpSeg} (cut : Cut xmit a pieces b) :
    ∀ p ∈ pieces, p.rangeStart < p.rangeEnd ∧ p.xmit = xmit := by
  induction pieces generalizing a with
  | nil => simp
  | cons p rest ih =>
    obtain ⟨rfl, hproper, hxmit, hrest⟩ := cut
    exact List.forall_mem_cons.mpr ⟨⟨hproper, hxmit⟩, ih hrest⟩

/-- `after` is `before` with some interests cut into pieces. -/
structure Recut (before after : List IntcpSeg) : Prop where
  spent : spent after = spent before
  offsets : intOffsets after = intOffsets before
  sends : sends before ≤ sends after
  proper : ∀ p ∈ after, p.rangeStart < p.rangeEnd
  old : ∀ p ∈ after, ∃ seg ∈ before, p.xmit = seg.xmit
  new : ∀ seg ∈ before, ∃ p ∈ after, p.xmit = seg.xmit

lemma Recut.refl {segs : List IntcpSeg} (proper : ∀ seg ∈ segs, seg.rangeStart < seg.rangeEnd) :
    Recut segs segs :=
  ⟨rfl, rfl, Nat.le_refl _, proper, fun p hp => ⟨p, hp, rfl⟩, fun p hp => ⟨p, hp, rfl⟩⟩

lemma Recut.append {a a' b b' : List IntcpSeg} (ha : Recut a a') (hb : Recut b b') :
    Recut (a ++ b) (a' ++ b') where
  spent := by rw [spent_append, spent_append, ha.spent, hb.spent]
  offsets := by rw [intOffsets_append, intOffsets_append, ha.offsets, hb.offsets]
  sends := by
    rw [sends_append, sends_append]
    exact Nat.add_le_add ha.sends hb.sends
  proper := List.forall_mem_append.mpr ⟨ha.proper, hb.proper⟩
  old := by
    intro p hp
    rcases List.mem_append.mp hp with hp | hp
    · obtain ⟨seg, hseg, h⟩ := ha.old p hp
      exact ⟨seg, List.mem_append_left _ hseg, h⟩
    · obtain ⟨seg, hseg, h⟩ := hb.old p hp
      exact ⟨seg, List.mem_append_right _ hseg, h⟩
  new := by
    intro seg hseg
    rcases List.mem_append.mp hseg with hseg | hseg
    · obtain ⟨p, hp, h⟩ := ha.new seg hseg
      exact ⟨p, List.mem_append_left _ hp, h⟩
    · obtain ⟨p, hp, h⟩ := hb.new seg hseg
      exact ⟨p, List.mem_append_right _ hp, h⟩

lemma recut_splitInt {seg : IntcpSeg} {s e : UInt32} (current : UInt32) (proper : s < e)
    (meets : seg.rangeStart < e ∧ s < seg.rangeEnd) (whole : seg.rangeStart < seg.rangeEnd) :
    Recut [seg] (splitInt seg s e current) := by
  have hcut := splitInt_cut current proper meets whole
  -- There is a piece, since the interest was not empty.
  obtain ⟨first, hfirst⟩ : ∃ p, p ∈ splitInt seg s e current := by
    apply List.exists_mem_of_ne_nil
    intro hnil
    rw [hnil] at hcut
    exact absurd whole (hcut ▸ UInt32.lt_irrefl _)
  refine ⟨?_, ?_, ?_, fun p hp => (hcut.mem p hp).1,
    fun p hp => ⟨seg, List.mem_singleton_self seg, (hcut.mem p hp).2⟩, ?_⟩
  · rw [hcut.spent, spent_cons]
    rfl
  · rw [hcut.offsets, intOffsets_cons]
    exact (List.append_nil _).symm
  · have hsingle : sends [seg] = seg.xmit.toNat := by rw [sends_cons]; rfl
    rw [hsingle, ← (hcut.mem first hfirst).2]
    exact List.single_le_sum (by simp) _ (List.mem_map_of_mem hfirst)
  · intro x hx
    obtain rfl := List.mem_singleton.mp hx
    exact ⟨first, hfirst, (hcut.mem first hfirst).2⟩

lemma recut_splitInts {s e : UInt32} (proper : s < e) (cb : IntcpTransCB F nameLen)
    {segs : List IntcpSeg} (whole : ∀ seg ∈ segs, seg.rangeStart < seg.rangeEnd) :
    Recut segs (splitInts P s e cb segs).2 := by
  induction segs generalizing cb with
  | nil => exact .refl whole
  | cons seg rest ih =>
    obtain ⟨hseg, hrest⟩ := List.forall_mem_cons.mp whole
    rw [splitInts]
    split
    · exact .refl whole
    · rename_i hstart
      split
      · exact (Recut.refl (List.forall_mem_singleton.mpr hseg)).append (ih cb hrest)
      · rename_i hend
        have hpieces := recut_splitInt (getMillisec P cb) proper
          ⟨UInt32.not_le.mp hstart, UInt32.not_le.mp hend⟩ hseg
        exact hpieces.append (ih (tick cb) hrest)

lemma toInt_charged {limit : Int32} {size : UInt32} (nonneg : 0 ≤ limit.toInt)
    (covers : size.toNat ≤ limit.toUInt32.toNat) :
    (limit.toUInt32 - size).toInt32.toInt = limit.toInt - size.toNat ∧
      0 ≤ (limit.toUInt32 - size).toInt32.toInt := by
  have hlimit := toNat_toUInt32 limit
  have hbound : limit.toInt < 2 ^ 31 := limit.toInt_lt
  have hsub := toNat_sub_of_le (UInt32.le_iff_toNat_le.mpr covers)
  rw [toInt_toInt32 (by omega), hsub]
  omega

/-- One sending of an interest: the limit pays for it, and the count of the interest grows. -/
lemma law_resend (cb : IntcpTransCB F nameLen) {n n' : Nat} {kept rest : List IntcpSeg}
    {seg seg' : IntcpSeg} {limit : Int32} (law : LawWith P mark cb n (kept ++ seg :: rest))
    (covers : (seg.rangeEnd - seg.rangeStart).toNat ≤ cb.intOutputLimit.toUInt32.toNat)
    (paid : limit = (cb.intOutputLimit.toUInt32 - (seg.rangeEnd - seg.rangeStart)).toInt32)
    (alive : seg.xmit < intcpDeadlink)
    (same : seg' = { seg with xmit := seg.xmit + 1, ts := seg'.ts }) (once : n' ≤ n + 1) :
    Law P mark cb.nodeRole cb.state cb.srtt cb.rto cb.conseqTimeout limit n'
      (kept ++ [seg'] ++ rest) cb.intQueue cb.history.accepted := by
  have hproper := law.proper seg (by simp)
  have hsize := toNat_sub_of_le (UInt32.le_of_lt hproper)
  obtain ⟨hlimit, hnonneg⟩ : limit.toInt = cb.intOutputLimit.toInt -
      (seg.rangeEnd - seg.rangeStart).toNat ∧ 0 ≤ limit.toInt :=
    paid ▸ toInt_charged law.nonneg covers
  have hlt : seg.xmit.toNat < 8 := UInt32.lt_iff_toNat_lt.mp alive
  have hxmit : (seg.xmit + 1).toNat = seg.xmit.toNat + 1 :=
    toNat_add_small (by simp only [UInt32.reduceToNat]; omega)
  have hspent : spent (kept ++ [seg'] ++ rest) =
      spent (kept ++ seg :: rest) + (seg.rangeEnd.toNat - seg.rangeStart.toNat) := by
    rw [same, List.append_assoc, List.singleton_append, spent_append, spent_append, spent_cons,
      spent_cons]
    simp only [hxmit, Nat.succ_mul]
    omega
  have hsends : sends (kept ++ [seg'] ++ rest) = sends (kept ++ seg :: rest) + 1 := by
    rw [same, List.append_assoc, List.singleton_append, sends_append, sends_append, sends_cons,
      sends_cons, hxmit]
    omega
  have hmem : ∀ p ∈ kept ++ [seg'] ++ rest, p = seg' ∨ p ∈ kept ++ seg :: rest := by
    intro p hp
    simp only [List.append_assoc, List.singleton_append, List.mem_append, List.mem_cons] at hp ⊢
    tauto
  have hoffsets : intOffsets (kept ++ [seg'] ++ rest) = intOffsets (kept ++ seg :: rest) := by
    rw [same]
    simp only [intOffsets_append, intOffsets_cons, List.append_assoc]
    rfl
  refine ⟨law.requester, law.still, hnonneg, ?_, ?_, ?_, ?_, ?_, ?_, law.backoff, ?_,
    hoffsets ▸ law.grown, law.closed⟩
  · have h := law.within
    omega
  · intro halive
    have h := law.exact halive
    omega
  · intro p hp
    rcases hmem p hp with rfl | hp
    · exact same ▸ hproper
    · exact law.proper p hp
  · intro p hp
    rcases hmem p hp with rfl | hp
    · rw [same, UInt32.le_iff_toNat_le]
      simp only [hxmit]
      exact hlt
    · exact law.tries p hp
  · intro hdead
    -- The interest that ran out of tries is another one.
    obtain ⟨p, hp, hlast⟩ := law.dead hdead
    refine ⟨p, ?_, hlast⟩
    rw [List.append_assoc, List.singleton_append]
    simp only [List.mem_append, List.mem_cons] at hp ⊢
    rcases hp with hp | rfl | hp
    · exact Or.inl hp
    · exact absurd alive (hlast ▸ UInt32.lt_irrefl _)
    · exact Or.inr (Or.inr hp)
  · rw [hoffsets]
    exact law.kept
  · have h := law.counted
    omega

lemma chargeLimit_requester {cb : IntcpTransCB F nameLen} (role : cb.nodeRole = .requester)
    (size : UInt32) : chargeLimit cb size =
      { cb with intOutputLimit := (cb.intOutputLimit.toUInt32 - size).toInt32 } := if_pos role

lemma law_sendInt (cb : IntcpTransCB F nameLen) {n n' : Nat} {kept rest : List IntcpSeg}
    {seg : IntcpSeg} (law : LawWith P mark cb n (kept ++ seg :: rest))
    (covers : (seg.rangeEnd - seg.rangeStart).toNat ≤ cb.intOutputLimit.toUInt32.toNat)
    (alive : seg.xmit < intcpDeadlink) (once : n' ≤ n + 1) (ts : UInt32) :
    LawWith P mark (sendInt P (chargeLimit cb (seg.rangeEnd - seg.rangeStart)) seg) n'
      (kept ++ [{ seg with xmit := seg.xmit + 1, ts := ts }] ++ rest) := by
  rw [chargeLimit_requester law.requester, sendInt, outputInt_eq]
  exact law_resend cb law covers rfl alive rfl once

/-- The loop of `flushIntBuf`, with the interests ahead of it. -/
lemma law_flushInts (fl : IntFlush F nameLen) {segs : List IntcpSeg}
    (law : LawWith P mark fl.cb fl.cntTimeout (fl.kept ++ segs)) :
    LawWith P mark (flushInts P fl segs).cb (flushInts P fl segs).cntTimeout
      (flushInts P fl segs).kept := by
  induction segs generalizing fl with
  | nil =>
    rw [List.append_nil] at law
    exact law
  | cons seg rest ih =>
    have hrole : (tick fl.cb).nodeRole = .requester := law.requester
    rw [flushInts]
    simp only
    split
    · apply ih
      rw [List.append_assoc, List.singleton_append]
      exact law
    · split
      · exact law
      · rename_i hcovers
        have hsize : (seg.rangeEnd - seg.rangeStart).toNat ≤ fl.cb.intOutputLimit.toUInt32.toNat := by
          rw [← UInt32.le_iff_toNat_le, ← UInt32.not_lt]
          exact fun h => hcovers ⟨hrole, h⟩
        split
        · rename_i hdead
          rw [chargeLimit_requester hrole]
          obtain ⟨hpaid, hnonneg⟩ := toInt_charged law.nonneg hsize
          have hwithin : spent (fl.kept ++ seg :: rest) + (fl.cb.intOutputLimit.toUInt32 -
              (seg.rangeEnd - seg.rangeStart)).toInt32.toInt ≤ intcpSndqMax.toNat := by
            have h := law.within
            omega
          exact ⟨law.requester, law.still, hnonneg, hwithin, fun h => absurd rfl h, law.proper,
            law.tries, fun _ => ⟨seg, by simp, UInt32.le_antisymm (law.tries seg (by simp)) hdead⟩,
            law.kept, law.backoff, law.counted, law.grown, law.closed⟩
        · rename_i halive
          rw [UInt32.not_le] at halive
          have hcount : (if seg.xmit > 0 then fl.cntTimeout + 1 else fl.cntTimeout) ≤
              fl.cntTimeout + 1 := by
            split <;> omega
          have hsent := law_sendInt (tick fl.cb) law hsize halive hcount (getMillisec P fl.cb)
          split
          · rename_i hmid
            rw [sendInt_role, chargeLimit_role, hrole] at hmid
            cases hmid
          · exact ih _ hsent

/-- Another flush with timeouts: `rto` grows once more, unless nine times is reached. -/
lemma backoff_succ {conseqTimeout : Int32} (start : Int32) (nonneg : 0 ≤ conseqTimeout.toInt)
    (next : (conseqTimeout + 1).toInt = conseqTimeout.toInt + 1) :
    (if conseqTimeout + 1 < 10 then expand P ((expand P)^[min conseqTimeout.toInt.toNat 9] start)
      else (expand P)^[min conseqTimeout.toInt.toNat 9] start) =
      (expand P)^[min (conseqTimeout + 1).toInt.toNat 9] start := by
  have hten : conseqTimeout + 1 < 10 ↔ conseqTimeout.toInt + 1 < 10 := by
    rw [Int32.lt_iff_toInt_lt, next]
    rfl
  rw [next]
  split
  · rename_i hless
    rw [hten] at hless
    have hold : min conseqTimeout.toInt.toNat 9 = conseqTimeout.toInt.toNat := by omega
    have hnew : min (conseqTimeout.toInt + 1).toNat 9 = conseqTimeout.toInt.toNat + 1 := by omega
    rw [hold, hnew, Function.iterate_succ_apply']
  · rename_i hmore
    rw [hten] at hmore
    have hold : min conseqTimeout.toInt.toNat 9 = 9 := by omega
    have hnew : min (conseqTimeout.toInt + 1).toNat 9 = 9 := by omega
    rw [hold, hnew]

lemma law_settle (cb : IntcpTransCB F nameLen) {n : Nat} {segs : List IntcpSeg}
    (still : expand P 0 = 0) (law : LawWith P mark cb n segs)
    (newOutput : Int32) (reach_limit : Bool) :
    LawWith P mark (settleFlush P cb newOutput reach_limit n) 0 segs := by
  have hlimit : (settleFlush P cb newOutput reach_limit n).intOutputLimit = cb.intOutputLimit :=
    if_neg fun h => h.1 law.still
  have hsrtt : (settleFlush P cb newOutput reach_limit n).srtt = 0 := by
    have hzero : ∀ c : Int32, (if n > 0 ∧ c < 10 then expand P 0 else 0) = 0 := by
      intro c
      split
      · exact still
      · rfl
    simp only [settleFlush, law.still]
    exact hzero _
  obtain ⟨hnonneg, hcounted⟩ := law.counted
  have hbound : (sends segs : Int) ≤ 7245 := by
    have hsends := sends_le_spent law.proper
    have hspent := law.within
    have hleft := law.nonneg
    have hmax : intcpSndqMax.toNat = 7245 := rfl
    omega
  have htimers : (settleFlush P cb newOutput reach_limit n).rto =
      (expand P)^[min (settleFlush P cb newOutput reach_limit n).conseqTimeout.toInt.toNat 9]
        intcpRtoDef.toInt32 ∧
      (settleFlush P cb newOutput reach_limit n).conseqTimeout.toInt =
        cb.conseqTimeout.toInt + min n 1 := by
    simp only [settleFlush]
    by_cases hn : n > 0
    · have hnext : (cb.conseqTimeout + 1).toInt = cb.conseqTimeout.toInt + 1 := by
        rw [Int32.toInt_add]
        apply Int.bmod_eq_of_le <;> rw [Int32.toInt_one] <;> omega
      have hgrown := backoff_succ (P := P) intcpRtoDef.toInt32 hnonneg hnext
      rw [← law.backoff] at hgrown
      simp only [hn, if_true, true_and]
      exact ⟨hgrown, by omega⟩
    · simp only [hn, if_false, false_and]
      exact ⟨law.backoff, by omega⟩
  obtain ⟨hbackoff, hcount⟩ := htimers
  refine ⟨law.requester, hsrtt, ?_, ?_, ?_, law.proper, law.tries, law.dead, law.kept, hbackoff, ?_,
    law.grown, law.closed⟩
  · rw [hlimit]
    exact law.nonneg
  · rw [hlimit]
    exact law.within
  · rw [hlimit]
    exact law.exact
  · omega

lemma law_sendInts (cb : IntcpTransCB F nameLen) (still : expand P 0 = 0)
    (law : LawWith P mark cb 0 cb.intBuf) (newOutput : Int32) :
    LawWith P mark (sendInts P cb newOutput) 0 (sendInts P cb newOutput).intBuf := by
  have hsent := law_flushInts ⟨cb, [], 0, false⟩ law
  simp only [sendInts]
  split
  · exact hsent.forget
  · exact law_settle { (flushInts P ⟨cb, [], 0, false⟩ cb.intBuf).cb with
      intBuf := (flushInts P ⟨cb, [], 0, false⟩ cb.intBuf).kept } still hsent newOutput _

lemma lawful_flushIntBuf {cb : IntcpTransCB F nameLen} (still : expand P 0 = 0)
    (h : Lawful P mark cb) : Lawful P mark (flushIntBuf P cb) := by
  refine ⟨accounts_flushIntBuf h.acc, ?_⟩
  rw [flushIntBuf]
  split
  · exact h.law
  · -- Without a known `srtt` the limit is not refilled.
    have hlimit : ∀ more : Int32, (if (tick cb).srtt ≠ 0 then (tick cb).intOutputLimit + more
        else (tick cb).intOutputLimit) = cb.intOutputLimit := fun _ => if_neg fun hne => hne h.law.still
    simp only [hlimit]
    exact law_sendInts { tick cb with intOutputLimit := cb.intOutputLimit } still h.law _

lemma lawful_flushIntQueue {cb cb' : IntcpTransCB F nameLen} (h : Lawful P mark cb)
    (hflush : flushIntQueue P cb = some cb') : Lawful P mark cb' := by
  refine ⟨accounts_flushIntQueue h.acc hflush, ?_⟩
  obtain ⟨st, segs, hst, hchunks, hdone⟩ := flushIntQueue_chunks (P := P) h.acc.queue
  obtain rfl : st = cb' := Option.some.inj (hst.symm.trans hflush)
  obtain ⟨hframe, _, hpackets, hoffsets, _, _⟩ := hchunks
  have hspent : spent segs = 0 := by
    rw [spent, List.sum_eq_zero_iff]
    intro n hn
    obtain ⟨seg, hseg, rfl⟩ := List.mem_map.mp hn
    rw [(hpackets seg hseg).unsent]
    exact Nat.zero_mul _
  have hsends : sends segs = 0 := by
    rw [sends, List.sum_eq_zero_iff]
    intro n hn
    obtain ⟨seg, hseg, rfl⟩ := List.mem_map.mp hn
    rw [(hpackets seg hseg).unsent]
    rfl
  have law := h.law
  rw [hdone] at hoffsets hframe
  rw [hframe]
  refine ⟨law.requester, law.still, law.nonneg, ?_, ?_, ?_, ?_, ?_, ?_, law.backoff, ?_, ?_,
    law.closed⟩
  · rw [spent_append, hspent, Nat.add_zero]
    exact law.within
  · rw [spent_append, hspent, Nat.add_zero]
    exact law.exact
  · exact List.forall_mem_append.mpr ⟨law.proper, fun seg hseg => (hpackets seg hseg).proper⟩
  · refine List.forall_mem_append.mpr ⟨law.tries, fun seg hseg => ?_⟩
    rw [(hpackets seg hseg).unsent]
    decide
  · intro hdead
    obtain ⟨seg, hseg, hlast⟩ := law.dead hdead
    exact ⟨seg, List.mem_append_left _ hseg, hlast⟩
  · rw [intOffsets_append, List.append_assoc, hoffsets]
    exact law.kept
  · rw [sends_append, hsends, Nat.add_zero]
    exact law.counted
  · rw [intOffsets_append, List.length_append]
    exact Nat.le_add_right_of_le law.grown

/-- The bytes of the buffer are among those that were accepted. -/
lemma intTotal_le {cb : IntcpTransCB F nameLen} (law : LawWith P mark cb 0 cb.intBuf) :
    intTotal cb.intBuf ≤ queueSize cb.history.accepted := by
  rw [← length_queueOffsets, ← law.kept, List.length_append, intOffsets_length]
  exact Nat.le_add_right _ _

/-- The counter is exact while what was accepted fits into it. -/
lemma intBufBytes_exact {cb : IntcpTransCB F nameLen} (h : Lawful P mark cb)
    (small : queueSize cb.history.accepted < 2 ^ 31) :
    cb.intBufBytes.toUInt32.toNat = intTotal cb.intBuf := by
  have htotal := intTotal_le h.law
  have hbytes : cb.intBufBytes.toInt = intTotal cb.intBuf := by
    rw [h.acc.ints]
    exact rangeBytes_exact _ h.acc.buf (by omega)
  have hunsigned := toNat_toUInt32 cb.intBufBytes
  omega

/-- A buffer that has been full stays full. -/
lemma refuses {cb : IntcpTransCB F nameLen} (h : Lawful P mark cb)
    (full : intcpIntbMax.toNat ≤ mark.bytes) (small : queueSize mark.accepted < 2 ^ 31) :
    cb.intBufBytes.toUInt32 ≥ intcpIntbMax := by
  have hgrown := h.law.grown
  rw [intOffsets_length] at hgrown
  have hbytes := intBufBytes_exact h ((h.law.closed full small).symm ▸ small)
  rw [ge_iff_le, UInt32.le_iff_toNat_le]
  omega

lemma lawful_request {cb : IntcpTransCB F nameLen} (h : Lawful P mark cb) (s : UInt32) {e : UInt32}
    (bound : InRange e) : Lawful P mark (request P cb s e).2 := by
  refine ⟨accounts_request h.acc s bound, ?_⟩
  have law := h.law
  rw [request]
  simp only
  split
  · exact law
  · split
    · exact law
    · rename_i hroom
      refine ⟨law.requester, law.still, law.nonneg, law.within, law.exact, law.proper, law.tries,
        law.dead, ?_, law.backoff, law.counted, law.grown, fun hfull hsmall => ?_⟩
      · rw [queueOffsets_snoc, queueOffsets_snoc, ← List.append_assoc, law.kept]
      · exact absurd (refuses h hfull hsmall) hroom

lemma lawful_outputInt {cb : IntcpTransCB F nameLen} (h : Lawful P mark cb) (s e : UInt32) :
    Lawful P mark (outputInt P cb s e) := by
  refine ⟨accounts_outputInt h.acc s e, ?_⟩
  rw [outputInt_eq]
  exact h.law

lemma lawful_enqueueAll {cb : IntcpTransCB F nameLen} (h : Lawful P mark cb) (segs : List IntcpSeg) :
    Lawful P mark (enqueueAll cb segs) := ⟨accounts_enqueueAll h.acc segs, h.law⟩

lemma lawful_tick {cb : IntcpTransCB F nameLen} (h : Lawful P mark cb) : Lawful P mark (tick cb) :=
  ⟨accounts_tick h.acc, h.law⟩

lemma lawful_parseInt {cb : IntcpTransCB F nameLen} (h : Lawful P mark cb) (s : UInt32) {e : UInt32}
    (bound : InRange e) : Lawful P mark (parseInt P cb s e) := by
  refine parseInt_rule (Lawful P mark) ?_ ?_ s e ?_ ?_ ?_ ?_ h
  · intro cb s e h
    exact ⟨⟨h.acc.snd, h.acc.ints, h.acc.queue, h.acc.buf, h.acc.holes⟩, h.law⟩
  · intro cb buffer start stop h
    exact lawful_enqueueAll h _
  · intro cb ir h _
    exact ⟨⟨h.acc.snd, h.acc.ints, h.acc.queue, h.acc.buf, h.acc.holes⟩, h.law⟩
  · intro cb h
    exact lawful_tick h
  · intro cb s h _
    exact lawful_outputInt h s e
  · intro cb s h _ _
    exact lawful_request h s bound

lemma lawful_updateIntBuf {cb : IntcpTransCB F nameLen} (h : Lawful P mark cb) {s e : UInt32}
    (proper : s < e) : Lawful P mark (updateIntBuf P cb s e) := by
  refine ⟨accounts_updateIntBuf h.acc proper, ?_⟩
  have hrecut := recut_splitInts (P := P) proper cb h.law.proper
  obtain ⟨n, hn⟩ := splitInts_reads (P := P) s e cb cb.intBuf
  have law := h.law
  simp only [updateIntBuf, hn]
  refine ⟨law.requester, law.still, law.nonneg, ?_, ?_, hrecut.proper, ?_, ?_, ?_, law.backoff, ?_,
    hrecut.offsets ▸ law.grown, law.closed⟩
  · rw [hrecut.spent]
    exact law.within
  · rw [hrecut.spent]
    exact law.exact
  · intro p hp
    obtain ⟨seg, hseg, hxmit⟩ := hrecut.old p hp
    exact hxmit ▸ law.tries seg hseg
  · intro hdead
    obtain ⟨seg, hseg, hlast⟩ := law.dead hdead
    obtain ⟨p, hp, hxmit⟩ := hrecut.new seg hseg
    exact ⟨p, hp, hxmit.trans hlast⟩
  · rw [hrecut.offsets]
    exact law.kept
  · have hsends := Int.ofNat_le.mpr hrecut.sends
    exact ⟨law.counted.1, law.counted.2.trans hsends⟩

lemma lawful_flushDataHoles {cb : IntcpTransCB F nameLen} (h : Lawful P mark cb) :
    Lawful P mark (flushDataHoles P cb) := by
  have hflushed : Lawful P mark (flushHoles P (getMillisec P cb) (tick cb) cb.dataHoles).1 := by
    refine flushHoles_rule (Lawful P mark) _ _ ?_ ?_ ?_ (lawful_tick h)
    · intro cb b h
      exact ⟨⟨h.acc.snd, h.acc.ints, h.acc.queue, h.acc.buf, h.acc.holes⟩, h.law⟩
    · intro cb hole hh hcb
      exact lawful_parseInt hcb _ (h.acc.holes hole hh).2
    · intro cb hole hh hcb _
      exact lawful_updateIntBuf hcb (h.acc.holes hole hh).1
  exact ⟨accounts_flushDataHoles h.acc, hflushed.law⟩

lemma lawful_flush {cb cb' : IntcpTransCB F nameLen} (still : expand P 0 = 0) (h : Lawful P mark cb)
    (hflush : flush P cb = some cb') : Lawful P mark cb' := by
  refine flush_rule (Lawful P mark) ?_ ?_ ?_ ?_ ?_ ?_ h hflush
  · intro cb h
    exact lawful_tick h
  · intro cb cb' h _ hqueue
    exact lawful_flushIntQueue h hqueue
  · intro cb h
    exact lawful_flushIntBuf still h
  · intro cb h _
    exact lawful_flushDataHoles h
  · intro cb h hrole
    exact absurd h.law.requester hrole
  · intro cb ts h
    exact ⟨⟨h.acc.snd, h.acc.ints, h.acc.queue, h.acc.buf, h.acc.holes⟩, h.law⟩

lemma lawful_update {cb cb' : IntcpTransCB F nameLen} (still : expand P 0 = 0) (h : Lawful P mark cb)
    (hupdate : update P cb = some cb') : Lawful P mark cb' := by
  refine update_rule (Lawful P mark) ?_ ?_ ?_ ?_ h hupdate
  · intro cb h
    exact lawful_tick h
  · intro cb now h
    exact ⟨⟨h.acc.snd, h.acc.ints, h.acc.queue, h.acc.buf, h.acc.holes⟩, h.law⟩
  · intro cb updated next h
    exact ⟨⟨h.acc.snd, h.acc.ints, h.acc.queue, h.acc.buf, h.acc.holes⟩, h.law⟩
  · intro cb cb' h hflush
    exact lawful_flush still h hflush

lemma lawful_inputInt {cb : IntcpTransCB F nameLen} (h : Lawful P mark cb) {s : IntcpSeg}
    (bound : InRange s.rangeEnd) : Lawful P mark (inputInt P cb s) := by
  have hmeasured : ∀ owd rate, Lawful P mark { tick cb with intHopOwd := owd, rmtSendRate := rate } :=
    fun _ _ => ⟨⟨h.acc.snd, h.acc.ints, h.acc.queue, h.acc.buf, h.acc.holes⟩, h.law⟩
  rw [inputInt]
  split
  · exact hmeasured _ _
  · exact lawful_parseInt (hmeasured _ _) _ bound

lemma law_detect {cb : IntcpTransCB F nameLen} (law : LawWith P mark cb 0 cb.intBuf) (s : IntcpSeg) :
    LawWith P mark (detect P cb s) 0 (detect P cb s).intBuf := by
  simp only [detect, detectDataHole]
  split
  · exact law
  · split
    · exact law
    · split
      · exact law
      · split
        · rename_i hmid
          exact absurd (hmid.symm.trans law.requester) (by decide)
        · exact law

lemma law_parseData {cb : IntcpTransCB F nameLen} (law : LawWith P mark cb 0 cb.intBuf) (seg : IntcpSeg)
    (header : Bool) : LawWith P mark (parseData cb seg header) 0 (parseData cb seg header).intBuf := by
  have hsent : LawWith P mark (if cb.nodeRole ≠ .requester then enqueue cb seg else cb) 0
      (if cb.nodeRole ≠ .requester then enqueue cb seg else cb).intBuf := by
    split
    · exact law
    · exact law
  cases header with
  | true => exact hsent
  | false => exact hsent

lemma lawful_inputPush {cb : IntcpTransCB F nameLen} (h : Lawful P mark cb) (current : UInt32)
    {s : IntcpSeg} (bound : InRange s.rangeStart) : Lawful P mark (inputPush P cb current s).2 := by
  refine ⟨accounts_inputPush h.acc current bound, ?_⟩
  have hmeasured : Lawful P mark (measureHop P cb current s) := by
    refine measureHop_rule (Lawful P mark) ?_ ?_ ?_ h current s
    · intro cb h
      exact lawful_tick h
    · intro cb cc rest h
      exact ⟨⟨h.acc.snd, h.acc.ints, h.acc.queue, h.acc.buf, h.acc.holes⟩, h.law⟩
    · intro cb h _
      exact lawful_outputInt h 0 0
  have hdetected := law_detect hmeasured.law s
  simp only [inputPush]
  split
  · exact law_parseData hdetected _ true
  · split
    · exact hdetected
    · exact law_parseData hdetected _ false

lemma lawful_input {cb : IntcpTransCB F nameLen} (h : Lawful P mark cb) {data : List UInt8}
    (bounded : ∀ s ∈ (decode P.raw data).2, InRange s.rangeStart ∧ InRange s.rangeEnd) :
    Lawful P mark (input P cb data).2 := by
  refine input_rule (Lawful P mark) _ ?_ ?_ ?_ data bounded h
  · intro cb h
    exact lawful_tick h
  · intro cb s h hbound _
    exact lawful_inputInt h hbound.2
  · intro cb current s h hbound _
    exact lawful_inputPush h current hbound.1

lemma lawful_notifyNewData {cb : IntcpTransCB F nameLen} (h : Lawful P mark cb) (buffer : Buffer)
    (s e : UInt32) : Lawful P mark (notifyNewData P cb buffer s e) := by
  have hreleased : Lawful P mark (releaseInts P buffer s e cb cb.pendingInts).1 :=
    releaseInts_rule (Lawful P mark) (fun _ _ _ _ h => lawful_enqueueAll h _) buffer s e h cb.pendingInts
  exact ⟨accounts_notifyNewData h.acc buffer s e, hreleased.law⟩

lemma law_recv {cb : IntcpTransCB F nameLen} (law : LawWith P mark cb 0 cb.intBuf) (maxBufSize : Int32) :
    LawWith P mark (recv cb maxBufSize).2 0 (recv cb maxBufSize).2.intBuf := by
  rw [recv]
  split
  · exact law
  · split
    · split
      · exact law
      · split
        · exact law
        · exact law
    · exact law

/-- Every call with ranges in bounds keeps the law. -/
theorem step_lawful (still : expand P 0 = 0) {op : Op nameLen} {cb cb' : IntcpTransCB F nameLen}
    (bounded : BoundedCall P op) (h : Lawful P mark cb) (hstep : op.step P cb = some cb') :
    Lawful P mark cb' := by
  have hacc := step_accounts bounded h.acc hstep
  rw [Op.step] at hstep
  split at hstep
  · cases hstep
    exact h
  · cases op with
    | input data =>
      cases hstep
      exact lawful_input h bounded
    | request s e =>
      cases hstep
      exact lawful_request h s bounded
    | parseInt s e =>
      cases hstep
      exact lawful_parseInt h s bounded
    | notifyNewData buffer s e =>
      cases hstep
      exact lawful_notifyNewData h buffer s e
    | insertData buffer s e =>
      obtain ⟨cache, _, rfl⟩ := Option.map_eq_some_iff.mp hstep
      apply lawful_notifyNewData
      exact ⟨⟨h.acc.snd, h.acc.ints, h.acc.queue, h.acc.buf, h.acc.holes⟩, h.law⟩
    | sendData buffer s e =>
      cases hstep
      rw [sendData_eq]
      exact lawful_enqueueAll h _
    | sendDataHeader s e =>
      cases hstep
      rw [sendDataHeader, enqueue_eq]
      exact lawful_enqueueAll h _
    | parseData seg header =>
      cases hstep
      exact ⟨hacc, law_parseData h.law seg header⟩
    | recv maxBufSize =>
      cases hstep
      exact ⟨hacc, law_recv h.law maxBufSize⟩
    | flush => exact lawful_flush still h hstep
    | update => exact lawful_update still h hstep
    | cacheInsert name s e dataBuf =>
      obtain ⟨cache, _, rfl⟩ := Option.map_eq_some_iff.mp hstep
      exact ⟨hacc, h.law⟩
    | cacheRead name s e =>
      cases hstep
      exact ⟨hacc, h.law⟩

/-- The mark of a new node. -/
def Mark.new : Mark := ⟨0, []⟩

def Mark.of (cb : IntcpTransCB F nameLen) : Mark := ⟨(intOffsets cb.intBuf).length, cb.history.accepted⟩

lemma lawful_create (nameChars : Vector UInt8 nameLen) (cache : Cache nameLen) :
    Lawful P .new (IntcpTransCB.create P .requester nameChars cache) := by
  have hlimit : 0 ≤ intcpSndqMax.toInt32.toInt := by decide
  refine ⟨accounts_create .requester nameChars cache, rfl, rfl, hlimit, ?_, fun _ => rfl, nofun,
    nofun, nofun, rfl, rfl, ?_, Nat.le_refl _, fun _ _ => rfl⟩
  · exact Int.le_refl _
  · exact ⟨Int.le_refl _, Int.le_refl _⟩

lemma run_lawful (still : expand P 0 = 0) {start cb : IntcpTransCB F nameLen}
    (initially : Lawful P mark start) {ops : List (Op nameLen)}
    (bounded : ∀ op ∈ ops, BoundedCall P op) (hrun : run (Op.step P) start ops = some cb) :
    Lawful P mark cb :=
  run_invariant_all (Lawful P mark)
    (fun _ _ _ h bounded hstep => step_lawful still bounded h hstep) initially bounded hrun

/-- The law does not depend on what happened before: the mark can be set anew. -/
lemma Lawful.again {cb : IntcpTransCB F nameLen} (h : Lawful P mark cb) : Lawful P (.of cb) cb :=
  ⟨h.acc, { h.law with grown := Nat.le_refl _, closed := fun _ _ => rfl }⟩

/-- In every reachable state of a requester the bytes that `request` accepted are those of
`intBuf` and `intQueue`, in order; what the buffered interests asked for and what the limit
has left add up to `INTCP_SNDQ_MAX`, less the interest that killed the link. So of what was
accepted no more than that was ever asked for, and of a larger demand something never was. What
is asked for to fill holes is charged to nothing. -/
theorem run_interestBudget (P : Platform F) (still : expand P 0 = 0)
    (nameChars : Vector UInt8 nameLen) (cache : Cache nameLen) (ops : List (Op nameLen))
    {cb : IntcpTransCB F nameLen} (bounded : ∀ op ∈ ops, BoundedCall P op)
    (hrun : run (Op.step P) (IntcpTransCB.create P .requester nameChars cache) ops = some cb) :
    intOffsets cb.intBuf ++ queueOffsets cb.intQueue = queueOffsets cb.history.accepted ∧
      spent cb.intBuf + cb.intOutputLimit.toInt ≤ intcpSndqMax.toNat ∧
      (cb.state ≠ -1 → spent cb.intBuf + cb.intOutputLimit.toInt = intcpSndqMax.toNat) ∧
      intTotal (askedOnce cb.intBuf) ≤ intcpSndqMax.toNat ∧
      (intcpSndqMax.toNat < queueSize cb.history.accepted →
        cb.intQueue ≠ [] ∨ ∃ seg ∈ cb.intBuf, seg.xmit = 0) := by
  have law := (run_lawful still (lawful_create nameChars cache) bounded hrun).law
  have hasked : intTotal (askedOnce cb.intBuf) ≤ intcpSndqMax.toNat := by
    have hcounted := intTotal_askedOnce_le cb.intBuf
    have hwithin := law.within
    have hnonneg := law.nonneg
    omega
  refine ⟨law.kept, law.within, law.exact, hasked, fun hmore => ?_⟩
  by_contra hall
  push Not at hall
  obtain ⟨hempty, hsent⟩ := hall
  have hfull : askedOnce cb.intBuf = cb.intBuf := by
    rw [askedOnce, List.filter_eq_self]
    intro seg hseg
    exact decide_eq_true (UInt32.pos_iff_ne_zero.mpr (hsent seg hseg))
  have hlength : (intOffsets cb.intBuf).length = queueSize cb.history.accepted := by
    rw [← length_queueOffsets, ← law.kept, hempty]
    exact congrArg List.length (List.append_nil _).symm
  have htotal : (intOffsets cb.intBuf).length = intTotal cb.intBuf := by
    simp only [intOffsets, intTotal, List.length_flatMap, length_offsets]
  rw [hfull] at hasked
  omega

/-- A clock under which every flush finds the timers of the first sendings run out. -/
def slowClock : Platform Rat := Platform.exact fun n => UInt32.ofNat (100000 * n)

/-- A requester that asks for 9000 bytes sends 7245 of them and never the rest. -/
theorem run_interestBudget_starved :
    ∃ cb, run (Op.step slowClock) (IntcpTransCB.create slowClock .requester #v[110]
        (Cache.fresh fun _ _ => 0)) [.request 0 (9000 : UInt32), .update, .update, .update] = some cb ∧
      intOffsets cb.intBuf ++ queueOffsets cb.intQueue = queueOffsets cb.history.accepted ∧
      spent cb.intBuf + cb.intOutputLimit.toInt ≤ intcpSndqMax.toNat ∧
      (cb.state ≠ -1 → spent cb.intBuf + cb.intOutputLimit.toInt = intcpSndqMax.toNat) ∧
      intTotal (askedOnce cb.intBuf) ≤ intcpSndqMax.toNat ∧
      (intcpSndqMax.toNat < queueSize cb.history.accepted →
        cb.intQueue ≠ [] ∨ ∃ seg ∈ cb.intBuf, seg.xmit = 0) := by
  have hreturns : (run (Op.step slowClock) (IntcpTransCB.create slowClock .requester #v[110]
      (Cache.fresh fun _ _ => 0))
      [.request 0 (9000 : UInt32), .update, .update, .update]).isSome = true := by
    decide +kernel
  obtain ⟨cb, hrun⟩ := Option.isSome_iff_exists.mp hreturns
  exact ⟨cb, hrun, run_interestBudget _ (by decide +kernel) _ _ _ (by decide +kernel) hrun⟩

/-- Once `intBuf` holds `INTCP_INTB_MAX` bytes, `request` refuses everything for good. -/
theorem run_refusesForGood (P : Platform F) (still : expand P 0 = 0)
    (nameChars : Vector UInt8 nameLen) (cache : Cache nameLen) (ops more : List (Op nameLen))
    {cb cb' : IntcpTransCB F nameLen} (bounded : ∀ op ∈ ops ++ more, BoundedCall P op)
    (hrun : run (Op.step P) (IntcpTransCB.create P .requester nameChars cache) ops = some cb)
    (full : cb.intBufBytes.toUInt32 ≥ intcpIntbMax)
    (small : queueSize cb.history.accepted < 2 ^ 31) (hmore : run (Op.step P) cb more = some cb') :
    cb'.history.accepted = cb.history.accepted ∧
      ∀ s e : UInt32, s < e → (request P cb' s e).1 = -1 := by
  obtain ⟨hops, hrest⟩ := List.forall_mem_append.mp bounded
  have h := run_lawful still (lawful_create nameChars cache) hops hrun
  have h' := run_lawful still h.again hrest hmore
  have hfull : intcpIntbMax.toNat ≤ (Mark.of cb).bytes := by
    rw [ge_iff_le, UInt32.le_iff_toNat_le, intBufBytes_exact h small] at full
    rw [Mark.of, intOffsets_length]
    exact full
  refine ⟨h'.law.closed hfull small, fun s e proper => ?_⟩
  rw [request]
  simp only
  rw [if_neg (UInt32.not_le.mpr proper), if_pos (refuses h' hfull small)]

structure Drained (accepted : List ByteRange) (cb : IntcpTransCB F nameLen) : Prop where
  requester : cb.nodeRole = .requester
  queue : cb.intQueue = []
  same : cb.history.accepted = accepted

lemma drained_sendInt {accepted : List ByteRange} {cb : IntcpTransCB F nameLen}
    (h : Drained accepted cb) (seg : IntcpSeg) : Drained accepted (sendInt P cb seg) := by
  rw [sendInt, outputInt_eq]
  exact ⟨h.requester, h.queue, h.same⟩

lemma drained_sendInts {accepted : List ByteRange} {cb : IntcpTransCB F nameLen}
    (h : Drained accepted cb) (newOutput : Int32) : Drained accepted (sendInts P cb newOutput) := by
  have hsent : Drained accepted (flushInts P ⟨cb, [], 0, false⟩ cb.intBuf).cb := by
    refine flushInts_rule (fun fl _ => Drained accepted fl.cb) ?_ ?_ ?_ ?_ ?_ h
    · exact fun fl seg rest h => ⟨h.requester, h.queue, h.same⟩
    · exact fun fl seg rest h _ => ⟨h.requester, h.queue, h.same⟩
    · intro fl seg rest size h _
      have hrole : (tick fl.cb).nodeRole = .requester := h.requester
      rw [chargeLimit_requester hrole]
      exact ⟨h.requester, h.queue, h.same⟩
    · intro fl seg rest n h hmid
      rw [h.requester] at hmid
      cases hmid
    · intro fl seg rest n size ts h _
      have hrole : (tick fl.cb).nodeRole = .requester := h.requester
      apply drained_sendInt
      rw [chargeLimit_requester hrole]
      exact ⟨h.requester, h.queue, h.same⟩
  simp only [sendInts]
  split
  · exact ⟨hsent.requester, hsent.queue, hsent.same⟩
  · exact ⟨hsent.requester, hsent.queue, hsent.same⟩

lemma drained_flushIntBuf {accepted : List ByteRange} {cb : IntcpTransCB F nameLen}
    (h : Drained accepted cb) : Drained accepted (flushIntBuf P cb) := by
  rw [flushIntBuf]
  split
  · exact h
  · apply drained_sendInts
    exact ⟨h.requester, h.queue, h.same⟩

lemma drained_flushDataHoles {accepted : List ByteRange} {cb : IntcpTransCB F nameLen}
    (h : Drained accepted cb) : Drained accepted (flushDataHoles P cb) := by
  have hflushed : Drained accepted (flushHoles P (getMillisec P cb) (tick cb) cb.dataHoles).1 := by
    refine flushHoles_rule (Drained accepted) _ _ ?_ ?_ ?_ ⟨h.requester, h.queue, h.same⟩
    · exact fun cb b h => ⟨h.requester, h.queue, h.same⟩
    · intro cb hole _ h
      refine parseInt_rule (Drained accepted) ?_ ?_ _ _ ?_ ?_ ?_ ?_ h
      · exact fun cb s e h => ⟨h.requester, h.queue, h.same⟩
      · exact fun cb buffer start stop h => ⟨h.requester, h.queue, h.same⟩
      · exact fun cb ir h _ => ⟨h.requester, h.queue, h.same⟩
      · exact fun cb h => ⟨h.requester, h.queue, h.same⟩
      · intro cb s h _
        rw [outputInt_eq]
        exact ⟨h.requester, h.queue, h.same⟩
      · intro cb s h _ hmid
        rw [h.requester] at hmid
        cases hmid
    · intro cb hole _ h _
      obtain ⟨n, hn⟩ := splitInts_reads (P := P) hole.startByte hole.endByte cb cb.intBuf
      rw [updateIntBuf, hn]
      exact ⟨h.requester, h.queue, h.same⟩
  exact ⟨hflushed.requester, hflushed.queue, hflushed.same⟩

lemma flush_drains {cb : IntcpTransCB F nameLen} (h : Lawful P mark cb) (started : cb.updated ≠ 0) :
    ∃ cb', flush P cb = some cb' ∧ Drained cb.history.accepted cb' := by
  obtain ⟨st, segs, hst, hchunks, hdone⟩ : ∃ st segs, flushIntQueue P (tick cb) = some st ∧
      Chunking (tick cb) st segs ∧ st.intQueue = [] := flushIntQueue_chunks h.acc.queue
  have hqueued : Drained cb.history.accepted st := by
    rw [hchunks.frame]
    exact ⟨h.law.requester, hdone, rfl⟩
  have hsent := drained_flushIntBuf (P := P) hqueued
  have hrole : (tick cb).nodeRole ≠ .responder := by
    have hrequester : (tick cb).nodeRole = .requester := h.law.requester
    rw [hrequester]
    nofun
  have hpart : flushIntPart P (tick cb) = some (flushIntBuf P st) := by
    rw [flushIntPart, if_neg hrole, hst]
    rfl
  have hstarted : ¬ (tick cb).updated = 0 := started
  simp only [flush, if_neg hstarted, hpart, Option.map_some]
  refine ⟨_, rfl, ?_⟩
  split
  · exact hsent
  · have hholes : Drained cb.history.accepted (flushHolePart P (flushIntBuf P st)) := by
      rw [flushHolePart]
      split
      · exact hsent
      · exact drained_flushDataHoles hsent
    rw [flushDataPart, if_pos hholes.requester]
    exact ⟨hholes.requester, hholes.queue, hholes.same⟩

lemma update_drains {cb : IntcpTransCB F nameLen} (h : Lawful P mark cb) (due : Due P cb) :
    ∃ cb', update P cb = some cb' ∧ Drained cb.history.accepted cb' := by
  obtain ⟨next, hupdate⟩ := (update_cases cb).1 due
  obtain ⟨updated, ts, print, rcvNxt, rcvBuf, n, hstarted, hready⟩ := ready_frame (P := P) cb
  have hlawful : Lawful P mark (ready P cb) := by
    rw [hready]
    exact ⟨⟨h.acc.snd, h.acc.ints, h.acc.queue, h.acc.buf, h.acc.holes⟩, h.law⟩
  obtain ⟨sent, hsent, hdrained⟩ := flush_drains hlawful (by rw [hready]; exact hstarted)
  rw [hready] at hdrained
  refine ⟨{ sent with nextFlushTs := next sent }, ?_,
    hdrained.requester, hdrained.queue, hdrained.same⟩
  rw [hupdate, hsent]
  rfl

def newRequester : IntcpTransCB Rat 1 :=
  .create freeClock .requester #v[100] (Cache.fresh fun _ _ => 0)

/-- A requester that asked for 20000 segments at once never asks for anything else. -/
theorem run_refusesForGood_full :
    ∃ cb cb', run (Op.step freeClock) newRequester [.request 0 28980000, .update] = some cb ∧
      run (Op.step freeClock) cb [.request 0 100] = some cb' ∧
      cb'.history.accepted = cb.history.accepted ∧
      ∀ s e : UInt32, s < e → (request freeClock cb' s e).1 = -1 := by
  have hasked : Lawful freeClock .new (request freeClock newRequester 0 28980000).2 :=
    lawful_request (lawful_create _ _) 0 (by decide)
  obtain ⟨cb, hupdate, hdrained⟩ := update_drains hasked (by decide +kernel)
  have hrequest : Op.step freeClock (.request 0 28980000) newRequester =
      some (request freeClock newRequester 0 28980000).2 := if_neg (by decide)
  have hflush : Op.step freeClock .update (request freeClock newRequester 0 28980000).2 =
      some cb := (if_neg (by decide +kernel)).trans hupdate
  have hrun : run (Op.step freeClock) newRequester [.request 0 28980000, .update] = some cb := by
    rw [run, hrequest, Option.bind_some, run, hflush]
    rfl
  have haccepted : cb.history.accepted = [⟨0, 28980000, 0⟩] := hdrained.same.trans (by decide +kernel)
  have hsize : queueSize cb.history.accepted = 28980000 := by
    rw [haccepted]
    rfl
  have hbounded : ∀ op ∈ [.request 0 28980000, .update] ++ [(.request 0 100 : Op 1)],
      BoundedCall freeClock op := by decide
  have h := run_lawful (by decide +kernel) (lawful_create #v[100] (Cache.fresh fun _ _ => 0))
    (List.forall_mem_append.mp hbounded).1 hrun
  have hfull : cb.intBufBytes.toUInt32 ≥ intcpIntbMax := by
    -- With an empty queue all that was accepted is in the buffer.
    have hkept := congrArg List.length h.law.kept
    rw [List.length_append, hdrained.queue, intOffsets_length, length_queueOffsets,
      length_queueOffsets, hsize] at hkept
    rw [ge_iff_le, UInt32.le_iff_toNat_le, intBufBytes_exact h (by omega)]
    have hempty : queueSize [] = 0 := rfl
    have hmax : intcpIntbMax.toNat = 28980000 := rfl
    omega
  have hmore : ∃ cb', run (Op.step freeClock) cb [.request 0 100] = some cb' := by
    rw [run, Op.step]
    split
    · exact ⟨_, rfl⟩
    · exact ⟨_, rfl⟩
  obtain ⟨cb', hmore⟩ := hmore
  exact ⟨cb, cb', hrun, hmore, run_refusesForGood _ (by decide +kernel) _ _ _ _ hbounded hrun hfull
    (by omega) hmore⟩

/-- The link dies only of an interest that was sent eight times, and no interest is sent more
often; `rto` has grown by a tenth once for each flush with timeouts, up to nine. -/
theorem run_interestBackoff (P : Platform F) (still : expand P 0 = 0)
    (nameChars : Vector UInt8 nameLen) (cache : Cache nameLen) (ops : List (Op nameLen))
    {cb : IntcpTransCB F nameLen} (bounded : ∀ op ∈ ops, BoundedCall P op)
    (hrun : run (Op.step P) (IntcpTransCB.create P .requester nameChars cache) ops = some cb) :
    cb.rto = (expand P)^[min cb.conseqTimeout.toInt.toNat 9] intcpRtoDef.toInt32 ∧
      0 ≤ cb.conseqTimeout.toInt ∧ cb.conseqTimeout.toInt ≤ sends cb.intBuf ∧
      sends cb.intBuf ≤ intcpSndqMax.toNat ∧
      (∀ seg ∈ cb.intBuf, seg.xmit ≤ intcpDeadlink) ∧
      (cb.state = -1 → ∃ seg ∈ cb.intBuf, seg.xmit = intcpDeadlink) := by
  have law := (run_lawful still (lawful_create nameChars cache) bounded hrun).law
  obtain ⟨hnonneg, hcounted⟩ := law.counted
  refine ⟨law.backoff, hnonneg, by omega, ?_, law.tries, law.dead⟩
  have hsends := sends_le_spent law.proper
  have hwithin := law.within
  have hleft := law.nonneg
  omega

/-- An interest of 800 bytes is sent eight times; the ninth timeout kills the link. -/
theorem run_interestBackoff_dead :
    ∃ cb, run (Op.step slowClock) (IntcpTransCB.create slowClock .requester #v[110]
        (Cache.fresh fun _ _ => 0)) (.request 0 (800 : UInt32) :: List.replicate 12 .update) = some cb ∧
      cb.state = -1 ∧
      cb.rto = (expand slowClock)^[min cb.conseqTimeout.toInt.toNat 9] intcpRtoDef.toInt32 ∧
      0 ≤ cb.conseqTimeout.toInt ∧ cb.conseqTimeout.toInt ≤ sends cb.intBuf ∧
      sends cb.intBuf ≤ intcpSndqMax.toNat ∧
      (∀ seg ∈ cb.intBuf, seg.xmit ≤ intcpDeadlink) ∧
      (cb.state = -1 → ∃ seg ∈ cb.intBuf, seg.xmit = intcpDeadlink) := by
  have hdead : (run (Op.step slowClock) (IntcpTransCB.create slowClock .requester #v[110]
      (Cache.fresh fun _ _ => 0))
      (.request 0 (800 : UInt32) :: List.replicate 12 .update)).map (fun cb => cb.state) = some (-1) := by
    decide +kernel
  obtain ⟨cb, hrun, hstate⟩ := Option.map_eq_some_iff.mp hdead
  exact ⟨cb, hrun, hstate,
    run_interestBackoff _ (by decide +kernel) _ _ _ (by decide +kernel) hrun⟩

end InterestBudget
