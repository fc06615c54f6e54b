import Intcp.NodeEffects
import Intcp.NodeMoves
import Intcp.OffsetLimits

/-!
# Draining the receive queue

The loops of `GSonNewSess` and of the midnode's `onNewSess` call `recv` until it
does not return 0. `recv` also returns 0 where it leaves a head that is longer
than the buffer in the queue, and nothing then ends the loop.
-/

namespace RecvDrain

open StepRuns Words BlockCache LruOrder CacheContents LastWrite TransControl SegmentCodec
  RateControl DataPlane InterestPlane NodeCore CallRules NodeEffects NodeMoves OffsetLimits

universe u
variable {F : Type u} {nameLen : Nat} {P : Platform F}

def maxBufSize : Int32 := 3000

/-- `BUFSIZE`, the size of the buffer that a datagram is read into. -/
def bufSize : Nat := 2048

/-- The locals of a loop, with the node behind `sessPtr` and the payloads handed on. -/
structure Consumer (F : Type u) (nameLen : Nat) where
  node : IntcpTransCB F nameLen
  start : UInt32
  «end» : UInt32
  recvBuf : Buffer
  handed : List (List UInt8)

/-- What `recvData` stores through its pointers. -/
def Consumer.store (st : Consumer F nameLen) (got : Received × IntcpTransCB F nameLen) :
    Consumer F nameLen where
  node := got.2
  start := got.1.start.getD st.start
  «end» := got.1.end.getD st.end
  recvBuf := st.recvBuf.write 0 (Buffer.ofList got.1.buffer) got.1.buffer.length
  handed := st.handed

/-- `while (sessPtr->recvData(recvBuf, size, &start, &end) == 0) use` -/
def drain (size : Int32) (use : Consumer F nameLen → Option (Consumer F nameLen)) :
    Nat → Consumer F nameLen → Option (Consumer F nameLen)
  | 0, _ => none
  | fuel + 1, st =>
    let got := recv st.node size
    if got.1.code ≠ 0 then some { st with node := got.2 }
    else (use (st.store got)).bind (drain size use fuel)

/-- `write(sessPtr->tunFd_toHost, recvBuf, end-start)`, unless the range is abnormal. -/
def writeToHost (st : Consumer F nameLen) : Option (Consumer F nameLen) :=
  if st.start ≥ st.end then some st
  else some { st with handed := st.handed ++ [st.recvBuf.bytes (st.end - st.start).toNat] }

def insertIntoCache (st : Consumer F nameLen) : Option (Consumer F nameLen) :=
  if st.end - st.start > maxBufSize.toUInt32 then some st
  else (BlockCache.insert st.node.cache st.node.nameChars st.start st.end st.recvBuf).map
    fun cache => { st with
      node := { st.node with cache := cache }
      handed := st.handed ++ [st.recvBuf.bytes (st.end - st.start).toNat] }

/-- The inner loop of `GSonNewSess`. -/
def gsonNewSess : Nat → Consumer F nameLen → Option (Consumer F nameLen) :=
  drain intcpMss.toInt32 writeToHost

/-- The inner loop of the `onNewSess` of intcp_mid.cpp. -/
def onNewSess : Nat → Consumer F nameLen → Option (Consumer F nameLen) :=
  drain maxBufSize insertIntoCache

/-- `recv` returns -1 on an empty queue only and changes nothing, and where it returns 0 it
delivers the head. -/
structure RecvLaw (cb : IntcpTransCB F nameLen) (size : Int32) : Prop where
  empty : (recv cb size).1.code = -1 ↔ cb.rcvQueue = []
  unchanged : cb.rcvQueue = [] → recv cb size = (⟨-1, none, none, []⟩, cb)
  delivers : (recv cb size).1.code = 0 → ∃ seg rest, cb.rcvQueue = seg :: rest ∧
    recv cb size = (⟨0, some seg.rangeStart, some seg.rangeEnd, seg.data⟩,
      { cb with rcvQueue := rest })

/-- The loop ends, with the queue empty and each payload handed on once. -/
def HandsOn (loop : Nat → Consumer F nameLen → Option (Consumer F nameLen))
    (cb : IntcpTransCB F nameLen) : Prop :=
  ∀ start stop recvBuf handed, ∃ fuel st,
    loop fuel ⟨cb, start, stop, recvBuf, handed⟩ = some st ∧ st.node.rcvQueue = [] ∧
      st.handed = handed ++ cb.rcvQueue.map IntcpSeg.data

/-- The law of `recv`, and what follows for the loop that the node is drained by. -/
structure Delivers (cb : IntcpTransCB F nameLen) (size : Int32) : Prop where
  law : RecvLaw cb size
  ground : cb.nodeRole = .requester → HandsOn gsonNewSess cb
  midnode : cb.nodeRole = .midnode → HandsOn onNewSess cb

/-- The insert of a segment, from a buffer that its payload is copied into. -/
def insertStep (name : Vector UInt8 nameLen) (seg : IntcpSeg) (st : Buffer × Cache nameLen) :
    Option (Buffer × Cache nameLen) :=
  let recvBuf := st.1.write 0 (Buffer.ofList seg.data) seg.data.length
  (BlockCache.insert st.2 name seg.rangeStart seg.rangeEnd recvBuf).map fun c => (recvBuf, c)

/-- The head fits into the buffer; at a ground station all segments fit into its buffer and
have ranges that do not wrap; at a midnode every range, when its turn comes, ends before the last
block of the offset space or meets a full block on the way round. -/
structure Deliverable (cb : IntcpTransCB F nameLen) (size : Int32) : Prop where
  head : ∀ seg ∈ cb.rcvQueue.head?, (seg.len.toNat : Int) ≤ size.toInt
  ground : cb.nodeRole = .requester → ∀ seg ∈ cb.rcvQueue,
    seg.len ≤ intcpMss ∧ seg.rangeStart < seg.rangeEnd
  midnode : cb.nodeRole = .midnode → ∀ recvBuf, Along (insertStep cb.nameChars)
    (fun st seg => Returnable st.2 cb.nameChars seg.rangeStart seg.rangeEnd)
    (recvBuf, cb.cache) cb.rcvQueue

/-- A segment as `input` puts it into the receive queue. -/
structure Whole (seg : IntcpSeg) : Prop where
  range : seg.rangeEnd - seg.rangeStart = seg.len
  size : 23 + seg.len.toNat ≤ bufSize

lemma recv_empty {cb : IntcpTransCB F nameLen} (queue : cb.rcvQueue = []) (size : Int32) :
    recv cb size = (⟨-1, none, none, []⟩, cb) := by
  rw [recv, queue]

section Head

variable {cb : IntcpTransCB F nameLen} {seg : IntcpSeg} {rest : List IntcpSeg} {size : Int32}
  (role : cb.nodeRole ≠ .responder) (queue : cb.rcvQueue = seg :: rest) (whole : Whole seg)
include role queue whole

lemma recv_fits (fits : seg.len ≤ size.toUInt32) :
    recv cb size = (⟨0, some seg.rangeStart, some seg.rangeEnd, seg.data⟩,
      { cb with rcvQueue := rest }) := by
  rw [recv, queue]
  simp only [ne_eq, role, not_false_eq_true, if_true, whole.range, not_true_eq_false, if_false, fits]

lemma recv_stuck (long : ¬ seg.len ≤ size.toUInt32) :
    recv cb size = (⟨0, none, none, []⟩, cb) := by
  rw [recv, queue]
  simp only [ne_eq, role, not_false_eq_true, if_true, whole.range, not_true_eq_false, if_false, long]

end Head

theorem recvLaw_iff {cb : IntcpTransCB F nameLen} (role : cb.nodeRole ≠ .responder)
    (whole : ∀ seg ∈ cb.rcvQueue, Whole seg) {size : Int32} (pos : 0 < size) :
    RecvLaw cb size ↔ ∀ seg ∈ cb.rcvQueue.head?, (seg.len.toNat : Int) ≤ size.toInt := by
  have hsize : (size.toUInt32.toNat : Int) = size.toInt := by
    rw [Int32.lt_iff_toInt_lt, Int32.toInt_zero] at pos
    rw [toNat_toUInt32, if_pos (Int.le_of_lt pos)]
  cases hqueue : cb.rcvQueue with
  | nil =>
    have hrecv := recv_empty hqueue size
    refine ⟨fun _ => nofun, fun _ => ⟨?_, fun _ => hrecv, ?_⟩⟩
    · simp [hrecv, hqueue]
    · rw [hrecv]
      intro h
      have hcode : (-1 : Int32) = 0 := h
      exact absurd hcode (by decide)
  | cons seg rest =>
    have hwhole := whole seg (hqueue ▸ List.mem_cons_self)
    by_cases hfits : seg.len ≤ size.toUInt32
    · have hrecv := recv_fits role hqueue hwhole hfits
      have hle := UInt32.le_iff_toNat_le.mp hfits
      refine ⟨fun _ => ?_, fun _ => ⟨?_, ?_, fun _ => ⟨seg, rest, hqueue, hrecv⟩⟩⟩
      · simp only [List.head?_cons, Option.mem_some_iff, forall_eq']
        omega
      · simp [hrecv, hqueue]
      · rw [hqueue]
        nofun
    · have hrecv := recv_stuck role hqueue hwhole hfits
      constructor
      · intro law
        obtain ⟨seg', rest', hqueue', hrecv'⟩ := law.delivers (by rw [hrecv])
        -- the head would have gone, but the queue is the same
        have hsame := congrArg (fun got => got.2.rcvQueue) (hrecv.symm.trans hrecv')
        simp only [hqueue'] at hsame
        exact absurd hsame (List.cons_ne_self seg' rest')
      · intro hhead
        have hle := hhead seg rfl
        rw [UInt32.le_iff_toNat_le] at hfits
        omega

lemma bytes_write (p : Buffer) (bs : List UInt8) :
    (p.write 0 (Buffer.ofList bs) bs.length).bytes bs.length = bs := by
  rw [← Buffer.bytes_ofList bs]
  refine List.ext_getElem ?_ ?_
  · simp only [Buffer.length_bytes]
  · intro i hi hi'
    simp only [Buffer.length_bytes, Buffer.bytes_ofList] at hi ⊢
    rw [Buffer.getElem_bytes, Buffer.write_inside (Nat.zero_le _) (by omega), Nat.sub_zero,
      Buffer.ofList, List.getD_eq_getElem?_getD, List.getElem?_eq_getElem hi, Option.getD_some]

section Rounds

variable {st : Consumer F nameLen} {seg : IntcpSeg} {rest : List IntcpSeg} {size : Int32}
  (use : Consumer F nameLen → Option (Consumer F nameLen))

lemma drain_empty (queue : st.node.rcvQueue = []) (fuel : Nat) :
    drain size use (fuel + 1) st = some st := by
  have hcode : ¬ (-1 : Int32) = 0 := by decide
  simp only [drain, recv_empty queue, ne_eq, hcode, not_false_eq_true, if_true]

variable (role : st.node.nodeRole ≠ .responder) (queue : st.node.rcvQueue = seg :: rest)
  (whole : Whole seg)
include role queue whole

/-- The head as the body of the loop gets it. -/
def Consumer.took (st : Consumer F nameLen) (seg : IntcpSeg) (rest : List IntcpSeg) :
    Consumer F nameLen where
  node := { st.node with rcvQueue := rest }
  start := seg.rangeStart
  «end» := seg.rangeEnd
  recvBuf := st.recvBuf.write 0 (Buffer.ofList seg.data) seg.data.length
  handed := st.handed

lemma drain_fits (fits : seg.len ≤ size.toUInt32) (fuel : Nat) :
    drain size use (fuel + 1) st = (use (st.took seg rest)).bind (drain size use fuel) := by
  simp only [drain, recv_fits role queue whole fits, ne_eq, not_true_eq_false, if_false]
  rfl

lemma drain_stuck (long : ¬ seg.len ≤ size.toUInt32) (fuel : Nat) :
    ∃ st', st'.node = st.node ∧ drain size use (fuel + 1) st = (use st').bind (drain size use fuel) := by
  simp only [drain, recv_stuck role queue whole long, ne_eq, not_true_eq_false, if_false]
  exact ⟨_, rfl, rfl⟩

end Rounds

lemma writeToHost_node {st st' : Consumer F nameLen} (h : writeToHost st = some st') :
    st'.node = st.node := by
  rw [writeToHost] at h
  split at h <;> cases h <;> rfl

/-- The payload of a segment goes to the host, unless its range wraps. -/
lemma writeToHost_took (st : Consumer F nameLen) {seg : IntcpSeg} (rest : List IntcpSeg)
    (whole : Whole seg) : ∃ st', writeToHost (st.took seg rest) = some st' ∧
      st'.node = { st.node with rcvQueue := rest } ∧
      st'.handed = st.handed ++
        ([seg].filter fun seg => decide (seg.rangeStart < seg.rangeEnd)).map IntcpSeg.data := by
  by_cases hrange : seg.rangeStart < seg.rangeEnd
  · refine ⟨_, if_neg (UInt32.not_le.mpr hrange), rfl, ?_⟩
    simp only [Consumer.took, whole.range, ← seg.dataLen, bytes_write, hrange, decide_true,
      List.filter_cons_of_pos, List.filter_nil, List.map_cons, List.map_nil]
  · refine ⟨_, if_pos (UInt32.not_lt.mp hrange), rfl, ?_⟩
    simp [Consumer.took, hrange]

/-- The loop ends only if every segment fits, and then drops those with a range that wraps. -/
lemma gsonNewSess_returned {fuel : Nat} {st st' : Consumer F nameLen}
    (role : st.node.nodeRole ≠ .responder) (whole : ∀ seg ∈ st.node.rcvQueue, Whole seg)
    (h : gsonNewSess fuel st = some st') :
    (∀ seg ∈ st.node.rcvQueue, seg.len ≤ intcpMss) ∧ st'.node.rcvQueue = [] ∧
      st'.handed = st.handed ++
        (st.node.rcvQueue.filter fun seg => decide (seg.rangeStart < seg.rangeEnd)).map
          IntcpSeg.data := by
  induction fuel generalizing st with
  | zero => cases h
  | succ fuel ih =>
    rw [gsonNewSess] at h
    cases hqueue : st.node.rcvQueue with
    | nil =>
      rw [drain_empty _ hqueue] at h
      cases h
      exact ⟨nofun, hqueue, (List.append_nil _).symm⟩
    | cons seg rest =>
      rw [hqueue] at whole
      obtain ⟨hwhole, hrest⟩ := List.forall_mem_cons.mp whole
      by_cases hfits : seg.len ≤ intcpMss
      · obtain ⟨next, hnext, hnode, hhanded⟩ := writeToHost_took st rest hwhole
        have hread : seg.len ≤ intcpMss.toInt32.toUInt32 := hfits
        rw [drain_fits _ role hqueue hwhole hread, hnext, Option.bind_some] at h
        obtain ⟨hall, hempty, hlater⟩ := ih (by rw [hnode]; exact role) (by rw [hnode]; exact hrest) h
        rw [hnode] at hall hlater
        refine ⟨List.forall_mem_cons.mpr ⟨hfits, hall⟩, hempty, ?_⟩
        rw [hlater, hhanded, List.append_assoc, ← List.map_append, ← List.filter_append,
          List.singleton_append]
      · have hleft : ¬ seg.len ≤ intcpMss.toInt32.toUInt32 := hfits
        obtain ⟨stuck, hnode, hround⟩ := drain_stuck writeToHost role hqueue hwhole hleft fuel
        rw [hround] at h
        obtain ⟨next, hnext, hlast⟩ := Option.bind_eq_some_iff.mp h
        have hsame : next.node = st.node := (writeToHost_node hnext).trans hnode
        obtain ⟨hall, _⟩ := ih (by rw [hsame]; exact role)
          (by rw [hsame, hqueue]; exact whole) hlast
        rw [hsame, hqueue] at hall
        exact absurd (hall seg List.mem_cons_self) hfits

lemma gsonNewSess_returns (st : Consumer F nameLen) (role : st.node.nodeRole ≠ .responder)
    (whole : ∀ seg ∈ st.node.rcvQueue, Whole seg)
    (fits : ∀ seg ∈ st.node.rcvQueue, seg.len ≤ intcpMss) :
    ∃ st', gsonNewSess (st.node.rcvQueue.length + 1) st = some st' := by
  generalize hqueue : st.node.rcvQueue = queue at whole fits
  induction queue generalizing st with
  | nil => exact ⟨st, drain_empty _ hqueue _⟩
  | cons seg rest ih =>
    obtain ⟨hwhole, hrest⟩ := List.forall_mem_cons.mp whole
    obtain ⟨hfits, hfitsRest⟩ := List.forall_mem_cons.mp fits
    obtain ⟨next, hnext, hnode, _⟩ := writeToHost_took st rest hwhole
    have hread : seg.len ≤ intcpMss.toInt32.toUInt32 := hfits
    rw [gsonNewSess, drain_fits _ role hqueue hwhole hread, hnext, Option.bind_some]
    exact ih next (by rw [hnode]; exact role) (by rw [hnode]) hrest hfitsRest

theorem handsOn_gsonNewSess_iff {cb : IntcpTransCB F nameLen} (role : cb.nodeRole ≠ .responder)
    (whole : ∀ seg ∈ cb.rcvQueue, Whole seg) :
    HandsOn gsonNewSess cb ↔
      ∀ seg ∈ cb.rcvQueue, seg.len ≤ intcpMss ∧ seg.rangeStart < seg.rangeEnd := by
  constructor
  · intro handsOn seg hseg
    obtain ⟨fuel, st, hloop, _, hhanded⟩ := handsOn 0 0 (fun _ => 0) []
    obtain ⟨hfits, _, hkept⟩ := gsonNewSess_returned role whole hloop
    rw [hhanded, List.append_cancel_left_eq] at hkept
    have hcount := congrArg List.length hkept
    simp only [List.length_map] at hcount
    have hall := List.length_filter_eq_length_iff.mp hcount.symm seg hseg
    exact ⟨hfits seg hseg, of_decide_eq_true hall⟩
  · intro deliverable start stop recvBuf handed
    obtain ⟨st, hloop⟩ := gsonNewSess_returns ⟨cb, start, stop, recvBuf, handed⟩ role whole
      fun seg hseg => (deliverable seg hseg).1
    obtain ⟨_, hempty, hkept⟩ := gsonNewSess_returned role whole hloop
    refine ⟨_, st, hloop, hempty, ?_⟩
    have hall : (cb.rcvQueue.filter fun seg => decide (seg.rangeStart < seg.rangeEnd)) =
        cb.rcvQueue :=
      List.filter_eq_self.mpr fun seg hseg => decide_eq_true (deliverable seg hseg).2
    rw [hkept, hall]

/-- The payload of a segment goes into the cache, under its range. -/
lemma insertIntoCache_took (st : Consumer F nameLen) {seg : IntcpSeg} (rest : List IntcpSeg)
    (whole : Whole seg) : insertIntoCache (st.took seg rest) =
      (BlockCache.insert st.node.cache st.node.nameChars seg.rangeStart seg.rangeEnd
        (st.took seg rest).recvBuf).map fun cache => { st.took seg rest with
          node := { st.node with rcvQueue := rest, cache := cache }
          handed := st.handed ++ [seg.data] } := by
  have hsize := whole.size
  have hmax : maxBufSize.toUInt32.toNat = 3000 := by decide
  have hsmall : ¬ seg.len > maxBufSize.toUInt32 := by
    rw [gt_iff_lt, UInt32.lt_iff_toNat_lt, hmax]
    simp only [bufSize] at hsize
    omega
  have hbytes : (st.took seg rest).recvBuf.bytes seg.len.toNat = seg.data := by
    simp only [Consumer.took, ← seg.dataLen, bytes_write]
  have hrange : (st.took seg rest).end - (st.took seg rest).start = seg.len := whole.range
  rw [insertIntoCache, hrange, if_neg hsmall, hbytes]
  rfl

lemma onNewSess_fits {seg : IntcpSeg} (whole : Whole seg) : seg.len ≤ maxBufSize.toUInt32 := by
  have hsize := whole.size
  have hmax : maxBufSize.toUInt32.toNat = 3000 := by decide
  rw [UInt32.le_iff_toNat_le, hmax]
  simp only [bufSize] at hsize
  omega

/-- The loop behind an insert. -/
def Consumer.inserted (st : Consumer F nameLen) (seg : IntcpSeg) (rest : List IntcpSeg)
    (next : Buffer × Cache nameLen) : Consumer F nameLen where
  node := { st.node with rcvQueue := rest, cache := next.2 }
  start := seg.rangeStart
  «end» := seg.rangeEnd
  recvBuf := next.1
  handed := st.handed ++ [seg.data]

/-- A round of the loop returns if its insert does. -/
lemma onNewSess_round {st : Consumer F nameLen} {seg : IntcpSeg} {rest : List IntcpSeg}
    (role : st.node.nodeRole ≠ .responder) (queue : st.node.rcvQueue = seg :: rest)
    (whole : Whole seg) (fuel : Nat) :
    onNewSess (fuel + 1) st =
      (insertStep st.node.nameChars seg (st.recvBuf, st.node.cache)).bind fun next =>
        onNewSess fuel (st.inserted seg rest next) := by
  rw [onNewSess, drain_fits _ role queue whole (onNewSess_fits whole),
    insertIntoCache_took st rest whole, Option.bind_map, insertStep, Option.bind_map]
  rfl

lemma insertStep_isSome {name : Vector UInt8 nameLen} {st : Buffer × Cache nameLen}
    (indexed : Indexed st.2) (seg : IntcpSeg) :
    (insertStep name seg st).isSome ↔ Returnable st.2 name seg.rangeStart seg.rangeEnd := by
  rw [insertStep, Option.isSome_map, insert_isSome_iff indexed]

lemma insertStep_indexed {name : Vector UInt8 nameLen} {st st' : Buffer × Cache nameLen}
    (indexed : Indexed st.2) {seg : IntcpSeg} (h : insertStep name seg st = some st') :
    Indexed st'.2 := by
  obtain ⟨c, hinsert, rfl⟩ := Option.map_eq_some_iff.mp h
  exact insert_indexed indexed hinsert

lemma onNewSess_returned {fuel : Nat} {st st' : Consumer F nameLen}
    (role : st.node.nodeRole ≠ .responder) (whole : ∀ seg ∈ st.node.rcvQueue, Whole seg)
    (indexed : Indexed st.node.cache) (h : onNewSess fuel st = some st') :
    Along (insertStep st.node.nameChars)
        (fun now seg => Returnable now.2 st.node.nameChars seg.rangeStart seg.rangeEnd)
        (st.recvBuf, st.node.cache) st.node.rcvQueue ∧
      st'.node.rcvQueue = [] ∧ st'.handed = st.handed ++ st.node.rcvQueue.map IntcpSeg.data := by
  induction fuel generalizing st with
  | zero => cases h
  | succ fuel ih =>
    cases hqueue : st.node.rcvQueue with
    | nil =>
      rw [onNewSess, drain_empty _ hqueue] at h
      cases h
      exact ⟨trivial, hqueue, (List.append_nil _).symm⟩
    | cons seg rest =>
      rw [hqueue] at whole
      obtain ⟨hwhole, hrest⟩ := List.forall_mem_cons.mp whole
      rw [onNewSess_round role hqueue hwhole] at h
      obtain ⟨next, hnext, hlast⟩ := Option.bind_eq_some_iff.mp h
      obtain ⟨halong, hempty, hhanded⟩ := @ih (st.inserted seg rest next) role hrest
        (insertStep_indexed indexed hnext) hlast
      refine ⟨⟨(insertStep_isSome indexed seg).mp (Option.isSome_of_eq_some hnext), ?_⟩, hempty, ?_⟩
      · intro now hnow
        obtain rfl := Option.some.inj (hnext.symm.trans hnow)
        exact halong
      · rw [hhanded]
        simp only [Consumer.inserted, List.append_assoc, List.singleton_append, List.map_cons]

lemma onNewSess_returns (st : Consumer F nameLen) (role : st.node.nodeRole ≠ .responder)
    (whole : ∀ seg ∈ st.node.rcvQueue, Whole seg) (indexed : Indexed st.node.cache)
    (returns : Along (insertStep st.node.nameChars)
      (fun now seg => Returnable now.2 st.node.nameChars seg.rangeStart seg.rangeEnd)
      (st.recvBuf, st.node.cache) st.node.rcvQueue) :
    ∃ st', onNewSess (st.node.rcvQueue.length + 1) st = some st' := by
  generalize hqueue : st.node.rcvQueue = queue at whole returns
  induction queue generalizing st with
  | nil => exact ⟨st, drain_empty _ hqueue _⟩
  | cons seg rest ih =>
    obtain ⟨hwhole, hrest⟩ := List.forall_mem_cons.mp whole
    obtain ⟨hnow, hlater⟩ := returns
    obtain ⟨next, hnext⟩ :=
      Option.isSome_iff_exists.mp ((insertStep_isSome indexed seg).mpr hnow)
    rw [List.length_cons, onNewSess_round role hqueue hwhole, hnext, Option.bind_some]
    exact ih (st.inserted seg rest next) role (insertStep_indexed indexed hnext) rfl hrest
      (hlater next hnext)

theorem handsOn_onNewSess_iff {cb : IntcpTransCB F nameLen} (role : cb.nodeRole ≠ .responder)
    (whole : ∀ seg ∈ cb.rcvQueue, Whole seg) (indexed : Indexed cb.cache) :
    HandsOn onNewSess cb ↔ ∀ recvBuf, Along (insertStep cb.nameChars)
      (fun st seg => Returnable st.2 cb.nameChars seg.rangeStart seg.rangeEnd)
      (recvBuf, cb.cache) cb.rcvQueue := by
  constructor
  · intro handsOn recvBuf
    obtain ⟨fuel, st, hloop, _, _⟩ := handsOn 0 0 recvBuf []
    exact (onNewSess_returned role whole indexed hloop).1
  · intro returns start stop recvBuf handed
    obtain ⟨st, hloop⟩ := onNewSess_returns ⟨cb, start, stop, recvBuf, handed⟩ role whole indexed
      (returns recvBuf)
    obtain ⟨_, hempty, hhanded⟩ := onNewSess_returned role whole indexed hloop
    exact ⟨_, st, hloop, hempty, hhanded⟩

/-- A datagram is no longer than the buffer it is read into, and only `input` calls
`parseData`. -/
def FromNetwork : Op nameLen → Prop
  | .input data => data.length ≤ bufSize
  | .parseData _ _ => False
  | _ => True

instance : ∀ op : Op nameLen, Decidable (FromNetwork op)
  | .input _ => inferInstanceAs (Decidable (_ ≤ _))
  | .parseData _ _ => inferInstanceAs (Decidable False)
  | .request _ _ | .parseInt _ _ | .notifyNewData _ _ _ | .insertData _ _ _ | .sendData _ _ _
  | .sendDataHeader _ _ | .recv _ | .flush | .update | .cacheInsert _ _ _ _ | .cacheRead _ _ _ =>
    inferInstanceAs (Decidable True)

structure Receives (role : Role) (cb : IntcpTransCB F nameLen) : Prop where
  role : cb.nodeRole = role
  queue : ∀ seg ∈ cb.rcvQueue, Whole seg
  buffer : ∀ seg ∈ cb.rcvBuf, Whole seg

def network : Traffic := ⟨fun _ => True, Whole⟩

lemma receives_move {role : Role} (other : role ≠ .responder) {cb cb' : IntcpTransCB F nameLen}
    (h : Receives role cb) (move : Move P network cb cb') : Receives role cb' := by
  cases move with
  | idle same =>
    exact ⟨same.nodeRole.trans h.role, same.rcvQueue ▸ h.queue, same.rcvBuf ▸ h.buffer⟩
  | arrive seg arrived =>
    refine ⟨h.role, ?_, nofun⟩
    intro x hx
    simp only [moveToRcvQueue, List.mem_append, List.mem_singleton] at hx
    rcases hx with hx | hx | rfl
    · exact h.queue x hx
    · exact h.buffer x hx
    · exact arrived
  | reset => exact ⟨h.role, h.queue, nofun⟩
  | deliver size =>
    have hrole : cb.nodeRole ≠ .responder := by
      rw [h.role]
      exact other
    cases hqueue : cb.rcvQueue with
    | nil =>
      rw [recv_empty hqueue]
      exact h
    | cons seg rest =>
      obtain ⟨hwhole, hrest⟩ := List.forall_mem_cons.mp (hqueue ▸ h.queue)
      by_cases hfits : seg.len ≤ size.toUInt32
      · rw [recv_fits hrole hqueue hwhole hfits]
        exact ⟨h.role, hrest, h.buffer⟩
      · rw [recv_stuck hrole hqueue hwhole hfits]
        exact h
  | _ => exact ⟨h.role, h.queue, h.buffer⟩

lemma opBrings_network {op : Op nameLen} (received : FromNetwork op) : OpBrings P network op := by
  cases op with
  | input data =>
    intro s hs
    have hlength := decode_length hs
    have hbound : 23 + s.len.toNat ≤ bufSize := Nat.le_trans hlength received
    have hbuf : bufSize < 2 ^ 31 := by decide
    exact ⟨Nat.lt_of_le_of_lt hbound hbuf, trivial, fun _ hrange => ⟨hrange, hbound⟩⟩
  | parseData seg header => exact received.elim
  | _ => trivial

lemma receives_step {role : Role} (other : role ≠ .responder) {op : Op nameLen}
    {cb cb' : IntcpTransCB F nameLen} (h : Receives role cb) (received : FromNetwork op)
    (step : op.step P cb = some cb') : Receives role cb' := by
  have keep : ∀ {c c' : IntcpTransCB F nameLen}, Receives role c → Moves P network c c' →
      Receives role c' :=
    fun hc moves => moves.keep (Receives role) (fun _ _ hc move => receives_move other hc move) hc
  rcases step_cases (opBrings_network received) step with ⟨ready, ts, next, _, moves, rfl⟩ | ⟨_, moves⟩
  · obtain ⟨_, _, _, _, _, _, hframe⟩ := flushData_frame (P := P) ready
    have hready := keep h moves
    rw [hframe]
    exact ⟨hready.role, hready.queue, hready.buffer⟩
  · exact keep h moves

/-- Whatever a call does to the shared cache, map and recency list agree. -/
lemma indexed_step {op : Op nameLen} {cb cb' : IntcpTransCB F nameLen} (h : Indexed cb.cache)
    (step : op.step P cb = some cb') : Indexed cb'.cache := by
  have effects : Effects P False True cb cb' := step_effects False.elim (fun _ => trivial) step
  refine effects.keep (fun now => Indexed now.cache) ?_ h
  intro now next hnow effect
  cases effect with
  | quiet same => exact same.cache ▸ hnow
  | read name s e => exact read_indexed hnow name s e _
  | insert name s e dataBuf hcache => exact insert_indexed hnow hcache
  | queue segs push => exact hnow
  | ask s e =>
    rw [outputInt_eq]
    exact hnow
  | send =>
    obtain ⟨limit, n, sn, bytes, queue, out, hframe⟩ := flushData_frame (P := P) now
    rw [hframe]
    exact hnow
  | timer updated next free => exact hnow

/-- A datagram with one data segment of `n` bytes. -/
def arrival (n : UInt32) : List UInt8 :=
  frame (pushSeg freeClock 0 n n (List.replicate n.toNat 7) List.length_replicate)

/-- A requester that it came to. -/
def arrived (n : UInt32) : IntcpTransCB Rat 1 :=
  (input freeClock (.create freeClock .requester #v[114] (Cache.fresh fun _ _ => 0)) (arrival n)).2

end RecvDrain
