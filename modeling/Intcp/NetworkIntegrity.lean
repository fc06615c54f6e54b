import Intcp.DatagramSoup
import Intcp.GenuineBytes
import Intcp.RecvDrain
import Intcp.TunnelIngress

/-!
# A network delivers what was put into it

The nodes of one session, with their application loops, over a medium that loses,
duplicates and reorders datagrams and may take any of them anywhere. If what the
caches start with and the applications of responders add under a name are bytes of
one sequence, then the caches, the queues, the hosts and the wires never see another
byte under that name.
-/

namespace NetworkIntegrity

open StepRuns DatagramSoup Words BlockCache CacheContents TransControl SegmentCodec
  DataPlane NodeCore CallRules LastWrite SentRanges DataFifo RecvDrain GroundStation CacheStream TunnelIngress GenuineBytes

universe u v
variable {F : Type u} {nameLen : Nat}

/-- A node with the locals of its application loop and, at a ground station, the offset that
the next bytes from the tunnel get. -/
structure Station (F : Type u) (nameLen : Nat) where
  packetId : Int32
  app : Consumer F nameLen

def Station.node (st : Station F nameLen) : IntcpTransCB F nameLen := st.app.node

def Station.withNode (st : Station F nameLen) (cb : IntcpTransCB F nameLen) : Station F nameLen :=
  { st with app := { st.app with node := cb } }

/-- One round of `while (sessPtr->recvData(recvBuf, size, &start, &end) == 0) use`. -/
def consume (size : Int32) (use : Consumer F nameLen → Option (Consumer F nameLen))
    (st : Consumer F nameLen) : Option (Consumer F nameLen) :=
  let got := recv st.node size
  if got.1.code ≠ 0 then some { st with node := got.2 } else use (st.store got)

/-- What a station does by itself: a call on its control block, a round of its application
loop, or a round of `GSsendFunc`. -/
inductive Act (nameLen : Nat) where
  | call (op : Op nameLen)
  | round
  | tunnel (pt : Buffer) (size : Int32)

/-- Ground stations write to their host, midnodes into their cache; nobody receives at a
responder. -/
def round (st : Consumer F nameLen) : Option (Consumer F nameLen) :=
  match st.node.nodeRole with
  | .requester => consume intcpMss.toInt32 writeToHost st
  | .midnode => consume maxBufSize insertIntoCache st
  | .responder => some st

def Act.step (P : Platform F) (a : Act nameLen) (st : Station F nameLen) :
    Option (Station F nameLen) :=
  if st.node.state = -1 then some st
  else match a with
    | .call op => (op.act P st.node).map st.withNode
    | .round => (NetworkIntegrity.round st.app).map fun app => { st with app := app }
    | .tunnel pt size => (sendChunk P ⟨st.packetId, st.node, []⟩ pt size).map fun sess =>
        { (st.withNode sess.transCB) with packetId := sess.packetId }

variable {Place : Type v} [DecidableEq Place]

def network (P : Place → Platform F) :
    Behaviour Place (Station F nameLen) (List UInt8) (Act nameLen) where
  sent st := st.node.history.toRequester ++ st.node.history.toResponder
  receive i data st := (Op.step (P i) (.input data) st.node).map st.withNode
  act i a st := a.step (P i) st

/-- A loop that returns went through rounds, the last of which found the queue empty. -/
theorem drain_rounds {size : Int32} {use : Consumer F nameLen → Option (Consumer F nameLen)}
    {fuel : Nat} {st st' : Consumer F nameLen} (h : drain size use fuel st = some st') :
    ∃ n, run (fun _ : Unit => consume size use) st (List.replicate n ()) = some st' := by
  induction fuel generalizing st with
  | zero => cases h
  | succ fuel ih =>
    rw [drain] at h
    by_cases hcode : (recv st.node size).1.code ≠ 0
    · simp only [if_pos hcode] at h
      refine ⟨1, ?_⟩
      simp only [List.replicate_one, run, consume, if_pos hcode, Option.bind_some]
      exact h
    · simp only [if_neg hcode] at h
      obtain ⟨next, hnext, hlast⟩ := Option.bind_eq_some_iff.mp h
      obtain ⟨n, hn⟩ := ih hlast
      refine ⟨n + 1, ?_⟩
      simp only [List.replicate_succ, run, consume, if_neg hcode, hnext, Option.bind_some]
      exact hn

instance (content : UInt32 → UInt8) (buffer : Buffer) (s e : UInt32) :
    Decidable (Supplies content buffer s e) :=
  decidable_of_iff (∀ i < e.toNat - s.toNat, buffer i = content (s + UInt32.ofNat i)) <| by
    constructor
    · intro h o hs ho
      have hdistance := toNat_sub_of_le hs
      rw [UInt32.lt_iff_toNat_lt] at ho
      rw [UInt32.le_iff_toNat_le] at hs
      rw [h _ (by omega), UInt32.ofNat_toNat]
      congr 1
      grind
    · intro h i hi
      have hlt := e.toNat_lt
      have hsmall : i < 2 ^ 32 := by omega
      have hindex : (UInt32.ofNat i).toNat = i := UInt32.toNat_ofNat_of_lt' hsmall
      have hoffset : (s + UInt32.ofNat i).toNat = s.toNat + i := by
        rw [toNat_add_small] <;> rw [hindex]
        omega
      have hback : (s + UInt32.ofNat i - s).toNat = i := by
        rw [toNat_sub_of_le (by rw [UInt32.le_iff_toNat_le]; omega)]
        omega
      have hbyte := h (s + UInt32.ofNat i) (by rw [UInt32.le_iff_toNat_le]; omega)
        (by rw [UInt32.lt_iff_toNat_lt]; omega)
      rwa [hback] at hbyte

/-- A range to be stored: its bytes are those of the sequence, and every slot table on its way
has room. -/
def Storable (content : UInt32 → UInt8) (cb : IntcpTransCB F nameLen) (buffer : Buffer)
    (s e : UInt32) : Prop :=
  Proper s e ∧ Supplies content buffer s e ∧ Room cb.cache cb.nameChars s e

instance (content : UInt32 → UInt8) (cb : IntcpTransCB F nameLen) (buffer : Buffer) (s e : UInt32) :
    Decidable (Storable content cb buffer s e) := inferInstanceAs (Decidable (_ ∧ _ ∧ _))

/-- Applications request what they like, add true bytes, and leave the calls that carry segments
to the network; other sessions use the cache under other names; no insert finds a full table. -/
def Allowed (content : UInt32 → UInt8) (st : Station F nameLen) : Act nameLen → Prop
  | .call (.request _ _) | .call .flush | .call .update | .call (.cacheRead _ _ _) => True
  | .call (.insertData buffer s e) => Storable content st.node buffer s e
  | .call (.cacheInsert other s e _) =>
    other ≠ st.node.nameChars ∧ Proper s e ∧ Room st.node.cache other s e
  | .call _ => False
  | .round => st.node.nodeRole = .midnode → ∀ seg ∈ st.node.rcvQueue.head?,
      Room st.node.cache st.node.nameChars seg.rangeStart seg.rangeEnd
  | .tunnel pt size => (1 ≤ size.toInt ∧ size.toInt ≤ 1449) ∧
      Storable content st.node pt st.packetId.toUInt32 (st.packetId + size).toUInt32

instance decidableAllowed (content : UInt32 → UInt8) (st : Station F nameLen) :
    ∀ a : Act nameLen, Decidable (Allowed content st a)
  | .call (.insertData buffer s e) => inferInstanceAs (Decidable (Storable content st.node buffer s e))
  | .call (.cacheInsert _ _ _ _) => inferInstanceAs (Decidable (_ ∧ _ ∧ _))
  | .call (.request _ _) | .call .flush | .call .update | .call (.cacheRead _ _ _) =>
    inferInstanceAs (Decidable True)
  | .call (.input _) | .call (.parseInt _ _) | .call (.notifyNewData _ _ _)
  | .call (.sendData _ _ _) | .call (.sendDataHeader _ _) | .call (.parseData _ _)
  | .call (.recv _) => inferInstanceAs (Decidable False)
  | .round => inferInstanceAs (Decidable (_ → ∀ seg ∈ st.node.rcvQueue.head?,
      Room st.node.cache st.node.nameChars seg.rangeStart seg.rangeEnd))
  | .tunnel _ _ => inferInstanceAs (Decidable ((_ ∧ _) ∧ _))

/-- A run of bytes of the sequence. -/
def Excerpt (content : UInt32 → UInt8) (bytes : List UInt8) : Prop :=
  ∃ s : UInt32, s.toNat + bytes.length ≤ 2 ^ 32 - 4096 ∧
    ∀ i (h : i < bytes.length), bytes[i] = content (s + UInt32.ofNat i)

structure Safe (content : UInt32 → UInt8) (name : Vector UInt8 nameLen) (role : Role)
    (st : Station F nameLen) : Prop where
  node : Authentic content name st.node
  order : InOrder role st.node
  handed : ∀ bytes ∈ st.app.handed, Excerpt content bytes

variable {P : Platform F} {content : UInt32 → UInt8} {name : Vector UInt8 nameLen} {role : Role}

lemma excerpt_of_genuine {seg : IntcpSeg} (genuine : Genuine content seg) :
    Excerpt content seg.data := by
  have htop := genuine.top
  have hstop := genuine.chunk.stop
  refine ⟨seg.rangeStart, ?_, genuine.chunk.payload⟩
  rw [seg.dataLen]
  omega

lemma whole_of_genuine {seg : IntcpSeg} (genuine : Genuine content seg) : RecvDrain.Whole seg := by
  have hsize := UInt32.le_iff_toNat_le.mp genuine.chunk.size
  rw [toNat_intcpMss] at hsize
  refine ⟨genuine.whole.1, ?_⟩
  rw [bufSize]
  omega

/-- The head of the queue gone, nothing else changed. -/
lemma authentic_taken {cb : IntcpTransCB F nameLen} (h : Authentic content name cb)
    {seg : IntcpSeg} {rest : List IntcpSeg} (queue : cb.rcvQueue = seg :: rest) :
    Genuine content seg ∧ Authentic content name { cb with rcvQueue := rest } := by
  have harrived := h.arrived
  rw [queue] at harrived
  obtain ⟨hseg, hrest⟩ := List.forall_mem_cons.mp harrived
  exact ⟨hseg, h.sameName, h.wellFormed, h.free, h.cached, h.pending, h.buffered, hrest, h.queued,
    h.asked⟩

lemma consume_empty {st : Consumer F nameLen} (queue : st.node.rcvQueue = []) (size : Int32)
    (use : Consumer F nameLen → Option (Consumer F nameLen)) : consume size use st = some st := by
  have hcode : ¬ (-1 : Int32) = 0 := by decide
  simp only [consume, recv_empty queue, ne_eq, hcode, not_false_eq_true, if_true]

lemma consume_fits {st : Consumer F nameLen} {seg : IntcpSeg} {rest : List IntcpSeg}
    (other : st.node.nodeRole ≠ .responder) (queue : st.node.rcvQueue = seg :: rest)
    (whole : RecvDrain.Whole seg) {size : Int32} (fits : seg.len ≤ size.toUInt32)
    (use : Consumer F nameLen → Option (Consumer F nameLen)) :
    consume size use st = use (st.took seg rest) := by
  simp only [consume, recv_fits other queue whole fits, ne_eq, not_true_eq_false, if_false]
  rfl

/-- What a host is given is an excerpt. -/
lemma safe_writeToHost {packetId : Int32} {app app' : Consumer F nameLen}
    (h : Safe content name role ⟨packetId, app⟩) (requester : app.node.nodeRole = .requester)
    (hround : consume intcpMss.toInt32 writeToHost app = some app') :
    Safe content name role ⟨packetId, app'⟩ := by
  have other : app.node.nodeRole ≠ .responder := by
    rw [requester]
    decide
  cases hqueue : app.node.rcvQueue with
  | nil =>
    rw [consume_empty hqueue] at hround
    cases hround
    exact h
  | cons seg rest =>
    obtain ⟨genuine, hnode⟩ := authentic_taken h.node hqueue
    have whole := whole_of_genuine genuine
    have hfits : seg.len ≤ intcpMss.toInt32.toUInt32 := genuine.chunk.size
    rw [consume_fits other hqueue whole hfits] at hround
    obtain ⟨st', hwrite, hkept, hhanded⟩ := writeToHost_took app rest whole
    obtain rfl := Option.some.inj (hround.symm.trans hwrite)
    refine ⟨?_, ?_, ?_⟩
    · rw [Station.node, hkept]
      exact hnode
    · rw [Station.node, hkept]
      exact h.order
    · intro bytes hbytes
      rw [hhanded] at hbytes
      rcases List.mem_append.mp hbytes with hold | hnew
      · exact h.handed bytes hold
      · obtain ⟨seg', hseg', rfl⟩ := List.mem_map.mp hnew
        rw [List.mem_singleton.mp (List.mem_filter.mp hseg').1]
        exact excerpt_of_genuine genuine

/-- What goes into the cache of a midnode is an excerpt under its range. -/
lemma safe_insertIntoCache {packetId : Int32} {app app' : Consumer F nameLen}
    (h : Safe content name role ⟨packetId, app⟩) (midnode : app.node.nodeRole = .midnode)
    (room : ∀ seg ∈ app.node.rcvQueue.head?,
      Room app.node.cache app.node.nameChars seg.rangeStart seg.rangeEnd)
    (hround : consume maxBufSize insertIntoCache app = some app') :
    Safe content name role ⟨packetId, app'⟩ := by
  have other : app.node.nodeRole ≠ .responder := by
    rw [midnode]
    decide
  cases hqueue : app.node.rcvQueue with
  | nil =>
    rw [consume_empty hqueue] at hround
    cases hround
    exact h
  | cons seg rest =>
    obtain ⟨genuine, hnode⟩ := authentic_taken h.node hqueue
    have whole := whole_of_genuine genuine
    rw [consume_fits other hqueue whole (onNewSess_fits whole),
      insertIntoCache_took app rest whole] at hround
    have hfront : ∀ i (hi : i < seg.data.length), (app.took seg rest).recvBuf i = seg.data[i] := by
      intro i hi
      simp only [Consumer.took]
      rw [Buffer.write_inside (Nat.zero_le _) (by omega), Nat.sub_zero, Buffer.ofList,
        List.getD_eq_getElem?_getD, List.getElem?_eq_getElem hi, Option.getD_some]
    have hroom := room seg (by rw [hqueue]; rfl)
    obtain ⟨cache, hinsert, hwritten⟩ := authentic_written hnode genuine.proper hroom
      fun _ => genuine.supplies hfront
    obtain ⟨cache', hinsert', rfl⟩ := Option.map_eq_some_iff.mp hround
    obtain rfl := Option.some.inj (hinsert.symm.trans hinsert')
    refine ⟨hwritten, h.order, ?_⟩
    intro bytes hbytes
    rcases List.mem_append.mp hbytes with hold | hnew
    · exact h.handed bytes hold
    · rw [List.mem_singleton.mp hnew]
      exact excerpt_of_genuine genuine

/-- The segment of a round of `GSsendFunc` over true bytes. -/
lemma tunnelSeg_genuine {packetId size : Int32} {pt : Buffer}
    (length : 1 ≤ size.toInt ∧ size.toInt ≤ 1449)
    (proper : Proper packetId.toUInt32 (packetId + size).toUInt32)
    (supplies : Supplies content pt packetId.toUInt32 (packetId + size).toUInt32) :
    Genuine content (tunnelSeg P packetId size pt) := by
  have hsize := toNat_toUInt32 size
  rw [if_pos (by omega)] at hsize
  have hend : (packetId + size).toUInt32 = packetId.toUInt32 + size.toUInt32 := Int32.toUInt32_add ..
  have hless := UInt32.lt_iff_toNat_lt.mp proper.1
  have hstop : (packetId + size).toUInt32.toNat = packetId.toUInt32.toNat + size.toUInt32.toNat := by
    have hstart := packetId.toUInt32.toNat_lt
    rw [hend, UInt32.toNat_add] at hless ⊢
    omega
  refine ⟨⟨rfl, rfl, ?_, ?_, hstop, ?_⟩, proper.2⟩
  · have hpos : 0 < size.toUInt32.toNat := by omega
    exact hpos
  · have hshort : size.toUInt32 ≤ intcpMss := by
      rw [UInt32.le_iff_toNat_le, toNat_intcpMss]
      omega
    exact hshort
  · intro i hi
    have hindex : i < size.toUInt32.toNat := by
      rw [IntcpSeg.dataLen] at hi
      exact hi
    have hsmall : (UInt32.ofNat i).toNat = i := UInt32.toNat_ofNat_of_lt' (by
      have hbound : i < 2 ^ 32 := by omega
      exact hbound)
    have hoffset : (packetId.toUInt32 + UInt32.ofNat i).toNat = packetId.toUInt32.toNat + i := by
      have htop := proper.2
      rw [toNat_add_small] <;> rw [hsmall]
      omega
    have hfrom : packetId.toUInt32 ≤ packetId.toUInt32 + UInt32.ofNat i := by
      rw [UInt32.le_iff_toNat_le]
      omega
    have hbyte := supplies (packetId.toUInt32 + UInt32.ofNat i) hfrom (by
      rw [UInt32.lt_iff_toNat_lt]
      omega)
    rw [toNat_sub_of_le hfrom, hoffset, Nat.add_sub_cancel_left] at hbyte
    simp only [tunnelSeg, pushSeg, Buffer.getElem_bytes]
    exact hbyte

lemma harmless_frame {seg : IntcpSeg} (genuine : Genuine content seg) :
    HarmlessDatagram content (frame seg) := by
  intro raw s hs
  have hsends : ∀ x ∈ [seg], Sendable x := by
    intro x hx
    rw [List.mem_singleton.mp hx]
    exact sendable_whole ⟨genuine.chunk.command, .inr genuine.whole.1⟩ genuine.chunk.size
  have hdecode := decode_frames raw hsends
  rw [List.flatMap_singleton] at hdecode
  rw [hdecode] at hs
  rw [List.mem_singleton.mp hs]
  exact .inr (.inr (genuine.of_same rfl rfl rfl rfl rfl))

/-- A round of `GSsendFunc` stores true bytes and takes them in as its own datagram. -/
lemma authentic_sendChunk {packetId size : Int32} {cb : IntcpTransCB F nameLen} {pt : Buffer}
    (h : Authentic content name cb) (order : InOrder role cb)
    (length : 1 ≤ size.toInt ∧ size.toInt ≤ 1449)
    (storable : Storable content cb pt packetId.toUInt32 (packetId + size).toUInt32)
    {sess : IntcpSess F nameLen} (hchunk : sendChunk P ⟨packetId, cb, []⟩ pt size = some sess) :
    Authentic content name sess.transCB ∧ InOrder role sess.transCB := by
  obtain ⟨proper, supplies, room⟩ := storable
  have genuine := tunnelSeg_genuine (P := P) length proper supplies
  have hfront : ∀ i (hi : i < (tunnelSeg P packetId size pt).data.length),
      ((Buffer.ofList (sndbuftmp (tunnelSeg P packetId size pt))).advance intcpOverhead.toNat) i =
        (tunnelSeg P packetId size pt).data[i] := by
    intro i hi
    have hbytes := payload_bytes (tunnelSeg P packetId size pt)
    simp only [← hbytes, Buffer.getElem_bytes]
  obtain ⟨cache, hinsert, hwritten⟩ := authentic_written h proper room
    fun _ => genuine.supplies hfront
  obtain ⟨cache', hinsert', rfl⟩ := Option.map_eq_some_iff.mp hchunk
  obtain rfl := Option.some.inj (hinsert.symm.trans hinsert')
  have hdatagram : HarmlessDatagram content (sndbuftmp (tunnelSeg P packetId size pt)) := by
    rw [sndbuftmp_eq]
    exact harmless_frame genuine
  have hcached : InOrder role (withCache cb cache) := order
  exact ⟨authentic_input hwritten hdatagram, inOrder_input hcached _⟩

/-- The calls that are left to applications and timers. -/
lemma authentic_call {st : Station F nameLen} {op : Op nameLen} (h : Authentic content name st.node)
    (allowed : Allowed content st (.call op)) {cb : IntcpTransCB F nameLen}
    (hact : op.act P st.node = some cb) : Authentic content name cb := by
  cases op with
  | request s e =>
    cases hact
    exact authentic_request h s e
  | insertData buffer s e =>
    obtain ⟨proper, supplies, room⟩ := allowed
    have hname := h.sameName
    obtain ⟨cache, hinsert, hwritten⟩ := authentic_written h proper room fun _ => supplies
    obtain ⟨cache', hinsert', rfl⟩ := Option.map_eq_some_iff.mp hact
    obtain rfl := Option.some.inj (hinsert.symm.trans hinsert')
    exact authentic_notifyNewData hwritten proper supplies
  | flush => exact authentic_flush h hact
  | update => exact authentic_update h hact
  | cacheInsert other s e buffer =>
    obtain ⟨differs, proper, room⟩ := allowed
    have hother : other = name → Supplies content buffer s e :=
      fun same => absurd (same.trans h.sameName.symm) differs
    obtain ⟨cache, hinsert, hwritten⟩ := authentic_written h proper room hother
    obtain ⟨cache', hinsert', rfl⟩ := Option.map_eq_some_iff.mp hact
    obtain rfl := Option.some.inj (hinsert.symm.trans hinsert')
    exact hwritten
  | cacheRead other s e =>
    cases hact
    obtain ⟨same, wf⟩ := read_kept h.wellFormed other s e fun _ => 0
    exact authentic_looked h same wf rfl
  | input _ | parseInt _ _ | notifyNewData _ _ _ | sendData _ _ _ | sendDataHeader _ _
  | parseData _ _ | recv _ => exact allowed.elim

lemma safe_act {st st' : Station F nameLen} (h : Safe content name role st) {a : Act nameLen}
    (allowed : Allowed content st a) (hstep : a.step P st = some st') :
    Safe content name role st' := by
  unfold Act.step at hstep
  split at hstep
  · cases hstep
    exact h
  · rename_i live
    cases a with
    | call op =>
      obtain ⟨cb, hact, rfl⟩ := Option.map_eq_some_iff.mp hstep
      have hop : op.step P st.node = some cb := by
        rw [Op.step, if_neg live]
        exact hact
      have hwhole : GivesWhole op := by
        cases op with
        | parseData _ _ => exact allowed.elim
        | _ => trivial
      exact ⟨authentic_call h.node allowed hact, step_inOrder hwhole h.order hop, h.handed⟩
    | round =>
      obtain ⟨app, hround, rfl⟩ := Option.map_eq_some_iff.mp hstep
      rw [NetworkIntegrity.round] at hround
      split at hround
      · rename_i hrole
        exact safe_writeToHost h hrole hround
      · rename_i hrole
        exact safe_insertIntoCache h hrole (allowed hrole) hround
      · cases hround
        exact h
    | tunnel pt size =>
      obtain ⟨sess, hchunk, rfl⟩ := Option.map_eq_some_iff.mp hstep
      obtain ⟨hnode, horder⟩ := authentic_sendChunk h.node h.order allowed.1 allowed.2 hchunk
      exact ⟨hnode, horder, h.handed⟩

lemma safe_receive {st st' : Station F nameLen} (h : Safe content name role st) {data : List UInt8}
    (harmless : HarmlessDatagram content data)
    (hstep : (Op.step P (.input data) st.node).map st.withNode = some st') :
    Safe content name role st' := by
  obtain ⟨cb, hinput, rfl⟩ := Option.map_eq_some_iff.mp hstep
  have whole : GivesWhole (.input data : Op nameLen) := trivial
  have horder := step_inOrder whole h.order hinput
  rw [Op.step] at hinput
  split at hinput
  · cases hinput
    exact ⟨h.node, horder, h.handed⟩
  · cases hinput
    exact ⟨authentic_input h.node harmless, horder, h.handed⟩

/-- A cache that holds nothing but bytes of the sequence under the name. -/
structure Stocked (content : UInt32 → UInt8) (cache : Cache nameLen)
    (name : Vector UInt8 nameLen) : Prop where
  wellFormed : WellFormed cache
  free : TopFree cache name
  cached : ∀ o v, Cached cache name o v → v = content o

lemma stocked_of_untouched {cache : Cache nameLen} (untouched : Untouched cache name) :
    Stocked content cache name := by
  refine ⟨untouched.wellFormed, untouched.unused _, ?_⟩
  rintro o v ⟨block, hblock, _⟩
  rw [untouched.unused] at hblock
  cases hblock

/-- A station as its program starts it. -/
def Station.start (P : Platform F) (role : Role) (name : Vector UInt8 nameLen)
    (cache : Cache nameLen) (packetId : Int32) : Station F nameLen where
  packetId := packetId
  app := {
    node := .create P role name cache
    start := P.raw
    «end» := P.raw
    recvBuf := fun _ => P.raw.toUInt8
    handed := [] }

/-- Reads under the name deliver bytes of the sequence, what waits to be sent or to be received
carries them at its offsets, the host was given excerpts, and what was sent is harmless. -/
structure Intact (content : UInt32 → UInt8) (name : Vector UInt8 nameLen)
    (st : Station F nameLen) : Prop where
  reads : ∀ s e out, Proper s e → ∀ o, s ≤ o →
    o.toNat < s.toNat + (BlockCache.read st.node.cache name s e out).readlen →
      (BlockCache.read st.node.cache name s e out).dataBuf (o - s).toNat = content o
  waits : ∀ seg ∈ st.node.sndQueue, Harmless content seg
  arrived : ∀ seg ∈ st.node.rcvBuf ++ st.node.rcvQueue, Genuine content seg
  handed : ∀ bytes ∈ st.app.handed, Excerpt content bytes
  sent : ∀ data ∈ st.node.history.toRequester ++ st.node.history.toResponder,
    HarmlessDatagram content data

lemma Safe.intact {st : Station F nameLen} (h : Safe content name role st) :
    Intact content name st := by
  refine ⟨?_, authentic_waits h.node h.order, ?_, h.handed, authentic_sends h.node h.order⟩
  · intro s e out proper o hs ho
    have delivers := read_delivers h.node.wellFormed name proper.1 (.inl proper.2) out
    exact h.node.cached o _ (delivers.bytes o hs ho)
  · intro seg hseg
    rcases List.mem_append.mp hseg with hseg | hseg
    · exact h.node.buffered seg hseg
    · exact h.node.arrived seg hseg

/-- In every run of the stations of a session, over any medium, every station stays intact. -/
theorem run_intact (P : Place → Platform F) (role : Place → Role) (name : Vector UInt8 nameLen)
    (cache : Place → Cache nameLen) (content : UInt32 → UInt8)
    (stocked : ∀ i, Stocked content (cache i) name) (packetId : Place → Int32)
    {events : List (Event Place (List UInt8) (Act nameLen))}
    (possible : Along (step (network P)) (Possible (network P) fun _ => Allowed content)
      (fun i => Station.start (P i) (role i) name (cache i) (packetId i)) events)
    {stations : Place → Station F nameLen}
    (reached : run (step (network P))
      (fun i => Station.start (P i) (role i) name (cache i) (packetId i)) events = some stations) :
    ∀ i, Intact content name (stations i) := by
  have initially : ∀ i, Safe content name (role i)
      (Station.start (P i) (role i) name (cache i) (packetId i)) := by
    intro i
    exact ⟨authentic_create (role i) (stocked i).wellFormed (stocked i).free (stocked i).cached,
      inOrder_create (role i) name (cache i), nofun⟩
  have safe := network_invariant (B := network P) (fun i => Safe content name (role i))
    (HarmlessDatagram content) (fun i st h => authentic_sends h.node h.order)
    (fun i st st' data h harmless => safe_receive h harmless)
    (fun i st st' a h allowed => safe_act h allowed) initially possible reached
  exact fun i => (safe i).intact

/-- Three bytes from the tunnel, as a responder and a midnode frame them. -/
def fromTunnel (ts : UInt8) : List UInt8 :=
  [81, 5, 0, ts, 0, 0, 0, 0, 0, 0, 0, 3, 0, 0, 0, 7, 0, 0, 0, 10, 0, 0, 0, 7, 8, 9]

def chainRole (i : Fin 3) : Role :=
  if i = 0 then .responder else if i = 1 then .midnode else .requester

def chainStart (i : Fin 3) : Station Rat 1 :=
  Station.start freeClock (chainRole i) #v[109] (Cache.fresh fun _ _ => 0) 7

/-- The requester gets the datagram of the midnode twice, and the one of the responder last. -/
def chainEvents : List (Event (Fin 3) (List UInt8) (Act 1)) :=
  [.act 0 (.tunnel (fun i => UInt8.ofNat (7 + i)) 3), .act 0 (.call .update),
    .arrive 1 (fromTunnel 9), .act 1 .round, .act 1 (.call .update), .arrive 2 (fromTunnel 11),
    .arrive 2 (fromTunnel 11), .act 2 .round, .act 2 .round, .arrive 2 (fromTunnel 9), .act 2 .round]

theorem chain_intact :
    ∃ stations, run (step (network fun _ => freeClock)) chainStart chainEvents = some stations ∧
      (stations 2).app.handed = [[7, 8, 9], [7, 8, 9], [7, 8, 9]] ∧
      ∀ i, Intact (fun o => UInt8.ofNat o.toNat) #v[109] (stations i) := by
  have hhanded : (run (step (network fun _ => freeClock)) chainStart chainEvents).map
      (fun stations => (stations 2).app.handed) = some [[7, 8, 9], [7, 8, 9], [7, 8, 9]] := by
    decide +kernel
  obtain ⟨stations, hrun, hbytes⟩ := Option.map_eq_some_iff.mp hhanded
  exact ⟨stations, hrun, hbytes, run_intact (fun _ => freeClock) chainRole #v[109]
    (fun _ => Cache.fresh fun _ _ => 0) _ (fun _ => stocked_of_untouched (fresh_untouched _))
    (fun _ => 7) (by decide +kernel) hrun⟩

end NetworkIntegrity
