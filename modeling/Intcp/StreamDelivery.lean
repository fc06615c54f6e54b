import Intcp.FifoChain
import Intcp.NetworkIntegrity

/-!
# A tunnel over a chain of midnodes

A ground station puts the bytes it reads from its tunnel on a chain of midnodes
of any length. If the links lose nothing and keep the order, then no hole is seen
on the way, no interest asks for anything, and what the other ground station
writes to its host is the front of what was read.
-/

namespace StreamDelivery

open StepRuns FifoChain FuelledLoop Words BlockCache TransControl SegmentCodec RateControl DataPlane
  HoleTracking InterestPlane NodeCore CallRules InputLoop DataFifo InterestFifo RecvDrain
  GroundStation TunnelIngress NetworkIntegrity

universe u
variable {F : Type u} {nameLen : Nat} {P : Platform F}

/-- What stays of a data segment from hop to hop. -/
structure Piece where
  cmd : UInt8
  start : UInt32
  stop : UInt32
  data : List UInt8
  deriving DecidableEq

def piece (seg : IntcpSeg) : Piece := ⟨seg.cmd, seg.rangeStart, seg.rangeEnd, seg.data⟩

/-- 1 to 1449 bytes of data from `a` on. -/
structure Follows (a : UInt32) (p : Piece) : Prop where
  command : p.cmd = intcpCmdPush
  start : p.start = a
  stop : p.stop.toNat = a.toNat + p.data.length
  nonempty : 1 ≤ p.data.length
  short : p.data.length ≤ 1449

def Stream : UInt32 → List Piece → Prop
  | _, [] => True
  | a, p :: rest => Follows a p ∧ Stream p.stop rest

/-- Where the stream goes on. -/
def cursor : UInt32 → List Piece → UInt32
  | a, [] => a
  | _, p :: rest => cursor p.stop rest

lemma stream_append {a : UInt32} {ps more : List Piece} :
    Stream a (ps ++ more) ↔ Stream a ps ∧ Stream (cursor a ps) more := by
  induction ps generalizing a with
  | nil => simp [Stream, cursor]
  | cons p rest ih => simp only [List.cons_append, Stream, cursor, ih, and_assoc]

lemma cursor_append (a : UInt32) (ps more : List Piece) :
    cursor a (ps ++ more) = cursor (cursor a ps) more := by
  induction ps generalizing a with
  | nil => rfl
  | cons p rest ih => exact ih p.stop

lemma Stream.of_prefix {a : UInt32} {ps more : List Piece} (h : ps <+: more)
    (stream : Stream a more) : Stream a ps := by
  obtain ⟨later, rfl⟩ := h
  exact (stream_append.mp stream).1

lemma Stream.follows {a : UInt32} {ps : List Piece} (stream : Stream a ps) :
    ∀ p ∈ ps, Follows p.start p := by
  induction ps generalizing a with
  | nil => simp
  | cons p rest ih =>
    refine List.forall_mem_cons.mpr ⟨?_, ih stream.2⟩
    rw [stream.1.start]
    exact stream.1

/-- The cursor of a node that has seen nothing is 0. -/
lemma cursor_seen (first : UInt32) (ps : List Piece) :
    cursor 0 ps = cursor first ps ∨ cursor 0 ps = 0 := by
  cases ps with
  | nil => exact .inr rfl
  | cons p rest => exact .inl rfl

/-- A segment of a stream passes the checks of `input`, and any buffer takes it. -/
lemma follows_segment {seg : IntcpSeg} {a : UInt32} (follows : Follows a (piece seg)) :
    seg.rangeEnd - seg.rangeStart = seg.len ∧ seg.len ≠ 0 ∧ seg.len ≤ intcpMss ∧
      seg.rangeStart < seg.rangeEnd := by
  have hstart : seg.rangeStart = a := follows.start
  have hstop : seg.rangeEnd.toNat = a.toNat + seg.data.length := follows.stop
  have hnonempty : 1 ≤ seg.data.length := follows.nonempty
  have hshort : seg.data.length ≤ 1449 := follows.short
  rw [seg.dataLen, ← hstart] at hstop
  rw [seg.dataLen] at hnonempty hshort
  have hless : seg.rangeStart < seg.rangeEnd := by
    rw [UInt32.lt_iff_toNat_lt]
    omega
  refine ⟨?_, ?_, ?_, hless⟩
  · rw [← UInt32.toNat_inj, toNat_sub_of_le (UInt32.le_of_lt hless)]
    omega
  · intro hzero
    rw [hzero] at hnonempty
    exact absurd hnonempty (by decide)
  · rw [UInt32.le_iff_toNat_le, toNat_intcpMss]
    exact hshort

/-- The pieces in a datagram, whoever reads it. -/
def items (data : List UInt8) : List Piece := (decode 0 data).2.map piece

lemma items_eq (raw : UInt32) (data : List UInt8) : items data = (decode raw data).2.map piece := by
  rw [items, decode_raw raw 0, List.map_map]
  rfl

/-- An interest that only announces a rate. -/
def Quiet (data : List UInt8) : Prop :=
  ∀ raw, ∀ s ∈ (decode raw data).2, s.cmd = intcpCmdInt ∧ s.rangeStart = 0 ∧ s.rangeEnd = 0

lemma quiet_announcement (cb : IntcpTransCB F nameLen) : Quiet (intDatagram P cb 0 0) := by
  intro raw x hx
  obtain ⟨got, hdecode, hcmd, hstart, hend⟩ := decode_intDatagram (P := P) cb 0 0
  rw [decode_raw P.raw raw, hdecode] at hx
  rw [List.mem_singleton.mp hx]
  exact ⟨hcmd, hstart, hend⟩

/-- A node that was given `got`, keeps `queue` for its application, and had sent `before`
downstream. -/
structure Carried (role : Role) (before : List (List UInt8)) (got queue : List Piece)
    (nodeRole : Role) (state : Int32) (intQueue : List ByteRange) (intBufBytes : Int32)
    (dataHoles : List Hole) (dataNextRangeStart : UInt32) (rcvBuf rcvQueue : List IntcpSeg)
    (history : History) : Prop where
  sameRole : nodeRole = role
  live : state ≠ -1
  noInts : intQueue = []
  noBytes : intBufBytes = 0
  noHoles : dataHoles = []
  next : dataNextRangeStart = cursor 0 got
  moved : rcvBuf = []
  waiting : rcvQueue.map piece = queue
  queued : history.queued.map piece = if role = .requester then [] else got
  quiet : ∀ data ∈ history.toResponder, Quiet data
  grows : before <+: history.toRequester

abbrev Carries (role : Role) (before : List (List UInt8)) (got queue : List Piece)
    (cb : IntcpTransCB F nameLen) : Prop :=
  Carried role before got queue cb.nodeRole cb.state cb.intQueue cb.intBufBytes cb.dataHoles
    cb.dataNextRangeStart cb.rcvBuf cb.rcvQueue cb.history

variable {role : Role} {before : List (List UInt8)} {got queue : List Piece}

lemma carries_create (role : Role) (nameChars : Vector UInt8 nameLen) (cache : Cache nameLen) :
    Carries role [] [] [] (IntcpTransCB.create P role nameChars cache) := by
  have hlive : (0 : Int32) ≠ -1 := by decide
  refine ⟨rfl, hlive, rfl, rfl, rfl, rfl, rfl, rfl, ?_, nofun, List.nil_prefix⟩
  rw [ite_self]
  rfl

lemma carries_announce {cb : IntcpTransCB F nameLen} (h : Carries role before got queue cb) :
    Carries role before got queue (outputInt P cb 0 0) := by
  rw [outputInt_eq]
  refine ⟨h.sameRole, h.live, h.noInts, h.noBytes, h.noHoles, h.next, h.moved, h.waiting, h.queued,
    ?_, h.grows⟩
  intro data hdata
  rcases List.mem_append.mp hdata with hdata | hdata
  · exact h.quiet data hdata
  · rw [List.mem_singleton.mp hdata]
    exact quiet_announcement cb

lemma carries_measureHop {cb : IntcpTransCB F nameLen} (h : Carries role before got queue cb)
    (current : UInt32) (s : IntcpSeg) :
    Carries role before got queue (measureHop P cb current s) := by
  apply measureHop_rule (Carries role before got queue) _ _ _ h
  · intro cb h
    exact h
  · intro cb cc rest h
    exact h
  · intro cb h _
    exact carries_announce h

/-- A data segment is passed on, unless this is the last node, and kept for the application. -/
lemma carries_parseData {cb : IntcpTransCB F nameLen} (was : UInt32) {seg : IntcpSeg}
    (h : Carries role before got queue { cb with dataNextRangeStart := was })
    (next : cb.dataNextRangeStart = cursor 0 (got ++ [piece seg])) :
    Carries role before (got ++ [piece seg]) (queue ++ [piece seg]) (parseData cb seg false) := by
  have hrole : cb.nodeRole = role := h.sameRole
  have hmoved : cb.rcvBuf = [] := h.moved
  have hwaits : cb.rcvQueue.map piece = queue := h.waiting
  have hqueued : cb.history.queued.map piece = if role = .requester then [] else got := h.queued
  have hwaiting : (cb.rcvQueue ++ (cb.rcvBuf ++ [seg])).map piece = queue ++ [piece seg] := by
    rw [hmoved, List.nil_append, List.map_append, hwaits, List.map_singleton]
  have hshape : parseData cb seg false = moveToRcvQueue (
      let sent := if cb.nodeRole ≠ .requester then enqueue cb seg else cb
      { sent with rcvBuf := sent.rcvBuf ++ [seg] }) := rfl
  by_cases hlast : role = .requester
  · have hsent : (if cb.nodeRole ≠ .requester then enqueue cb seg else cb) = cb :=
      if_neg (not_not.mpr (hrole.trans hlast))
    simp only [hshape, hsent]
    refine ⟨h.sameRole, h.live, h.noInts, h.noBytes, h.noHoles, next, rfl, hwaiting, ?_, h.quiet,
      h.grows⟩
    rw [if_pos hlast] at hqueued ⊢
    exact hqueued
  · have hsent : (if cb.nodeRole ≠ .requester then enqueue cb seg else cb) = enqueueAll cb [seg] :=
      (if_pos fun hreq => hlast (hrole.symm.trans hreq)).trans (enqueue_eq cb seg)
    simp only [hshape, hsent]
    refine ⟨h.sameRole, h.live, h.noInts, h.noBytes, h.noHoles, next, rfl, hwaiting, ?_, h.quiet,
      h.grows⟩
    rw [if_neg hlast] at hqueued ⊢
    have hmore : (cb.history.queued ++ [seg]).map piece = got ++ [piece seg] := by
      rw [List.map_append, hqueued, List.map_singleton]
    exact hmore

/-- The next segment of the stream is taken in without a hole. -/
lemma carries_push {cb : IntcpTransCB F nameLen} (h : Carries role before got queue cb)
    {first : UInt32} (current : UInt32) {s : IntcpSeg}
    (follows : Follows (cursor first got) (piece s)) :
    (inputPush P cb current s).1 = true ∧
      Carries role before (got ++ [piece s]) (queue ++ [piece s]) (inputPush P cb current s).2 := by
  obtain ⟨hrange, hlen, _, _⟩ := follows_segment follows
  have hmeasured := carries_measureHop (P := P) h current s
  have hnext : (measureHop P cb current s).dataNextRangeStart = s.rangeStart ∨
      (measureHop P cb current s).dataNextRangeStart = 0 := by
    have hstart : s.rangeStart = cursor first got := follows.start
    rw [hmeasured.next, hstart]
    exact cursor_seen first got
  have hcursor : s.rangeEnd = cursor 0 (got ++ [piece s]) := by
    rw [cursor_append]
    rfl
  have hdetected : detect P (measureHop P cb current s) s = { measureHop P cb current s with
      dataNextRangeStart := s.rangeEnd
      cc := { (measureHop P cb current s).cc with
        hasLossEvent := (measureHop P cb current s).cc.hasLossEvent || false } } := by
    rw [detect, detectDataHole_next hnext]
  rw [inputPush, hdetected, if_neg hlen, if_neg (not_not.mpr hrange)]
  refine ⟨rfl, ?_⟩
  have hrebuilt : piece (rebuilt P s) = piece s := rfl
  rw [← hrebuilt]
  exact carries_parseData (measureHop P cb current s).dataNextRangeStart hmeasured hcursor

/-- So are all the segments of a datagram. -/
lemma carries_handleAll {cb : IntcpTransCB F nameLen} (h : Carries role before got queue cb)
    {first : UInt32} {segs : List IntcpSeg} (stream : Stream (cursor first got) (segs.map piece)) :
    Carries role before (got ++ segs.map piece) (queue ++ segs.map piece) (handleAll P cb segs).2 := by
  induction segs generalizing cb got queue with
  | nil =>
    rw [List.map_nil, List.append_nil, List.append_nil]
    exact h
  | cons s rest ih =>
    obtain ⟨follows, hrest⟩ := stream
    have hticked : Carries role before got queue (tick cb) := h
    have hpush : ¬ s.cmd = intcpCmdInt := by
      have hcommand : s.cmd = intcpCmdPush := follows.command
      rw [hcommand]
      decide
    obtain ⟨hflag, hpushed⟩ := carries_push (P := P) hticked (getMillisec P cb) follows
    have hlater := ih hpushed (by rw [cursor_append]; exact hrest)
    rw [handleAll, handle, if_neg hpush]
    simp only [hflag, if_true]
    rw [List.append_assoc, List.append_assoc] at hlater
    exact hlater

lemma carries_input {cb : IntcpTransCB F nameLen} (h : Carries role before got queue cb)
    {first : UInt32} {data : List UInt8} (stream : Stream first (got ++ items data)) :
    Carries role before (got ++ items data) (queue ++ items data) (input P cb data).2 := by
  obtain ⟨n, hinput⟩ := input_handleAll (P := P) cb data
  rw [items_eq P.raw] at stream ⊢
  rw [hinput]
  exact carries_handleAll h (stream_append.mp stream).2

/-- An announcement changes the rate only. -/
lemma carries_quiet {cb : IntcpTransCB F nameLen} (h : Carries role before got queue cb)
    {data : List UInt8} (quiet : Quiet data) :
    Carries role before got queue (input P cb data).2 := by
  apply input_rule (Carries role before got queue)
    (fun s => s.cmd = intcpCmdInt ∧ s.rangeStart = 0 ∧ s.rangeEnd = 0) _ _ _ data (quiet P.raw) h
  · intro cb h
    exact h
  · intro cb s h hs _
    rw [inputInt, if_pos hs.2]
    exact h
  · intro cb current s _ hs push
    rw [hs.1] at push
    exact absurd push (by decide)

lemma flushSegs_grows (fl : Flushing F nameLen) (segs : List IntcpSeg) :
    fl.cb.history.toRequester <+: (flushSegs P fl segs).2.cb.history.toRequester := by
  induction segs generalizing fl with
  | nil => exact List.prefix_rfl
  | cons seg rest ih =>
    rw [flushSegs]
    split
    · exact List.prefix_rfl
    · obtain ⟨limit, out, hcb⟩ := flushSeg_cb (P := P) fl seg
      refine List.IsPrefix.trans ?_ (ih (flushSeg P fl seg))
      rw [hcb]
      exact List.prefix_append _ _

lemma flushData_grows (cb : IntcpTransCB F nameLen) :
    cb.history.toRequester <+: (flushData P cb).history.toRequester := by
  simp only [flushData, output_requester]
  refine List.IsPrefix.trans ?_ (List.prefix_append _ _)
  exact flushSegs_grows ⟨{ tick cb with dataOutputLimit := _ }, []⟩ _

lemma carries_flush {cb cb' : IntcpTransCB F nameLen} (h : Carries role before got queue cb)
    (hflush : flush P cb = some cb') : Carries role before got queue cb' := by
  apply flush_rule (Carries role before got queue) _ _ _ _ _ _ h hflush
  · intro cb h
    exact h
  · intro cb cb' h _ hqueue
    -- there is nothing to coalesce
    refine loop_invariant (Carries role before got queue) (Carries role before got queue) ?_ ?_ h
      hqueue
    · intro s t hs hpass
      rw [queuePass, hs.noInts] at hpass
      cases hpass
    · intro s t hs hpass
      rw [queuePass, hs.noInts] at hpass
      cases hpass
      exact hs
  · intro cb h
    rw [flushIntBuf, if_pos h.noBytes]
    exact h
  · intro cb h _
    have hnone : (tick cb).dataHoles = [] := h.noHoles
    simp only [flushDataHoles, hnone, flushHoles]
    exact ⟨h.sameRole, h.live, h.noInts, h.noBytes, rfl, h.next, h.moved, h.waiting, h.queued, h.quiet,
      h.grows⟩
  · intro cb h _
    have hgrows := h.grows.trans (flushData_grows (P := P) cb)
    obtain ⟨_, _, _, _, _, _, hframe⟩ := flushData_frame (P := P) cb
    rw [hframe] at hgrows ⊢
    exact ⟨h.sameRole, h.live, h.noInts, h.noBytes, h.noHoles, h.next, h.moved, h.waiting, h.queued,
      h.quiet, hgrows⟩
  · intro cb ts h
    exact h

lemma carries_update {cb cb' : IntcpTransCB F nameLen} (h : Carries role before got queue cb)
    (hupdate : update P cb = some cb') : Carries role before got queue cb' := by
  apply update_rule (Carries role before got queue) _ _ _ _ h hupdate
  · intro cb h
    exact h
  · intro cb now h
    exact ⟨h.sameRole, h.live, h.noInts, h.noBytes, h.noHoles, h.next, rfl, h.waiting, h.queued,
      h.quiet, h.grows⟩
  · intro cb updated next h
    exact h
  · intro cb cb' h hflush
    exact carries_flush h hflush

/-- A station, with the bytes that it has read from its tunnel. -/
structure Relay (F : Type u) (nameLen : Nat) where
  station : Station F nameLen
  read : List UInt8

def Act.reads : Act nameLen → List UInt8
  | .tunnel pt size => pt.bytes size.toUInt32.toNat
  | _ => []

def chain (P : Nat → Platform F) :
    Behaviour (Relay F nameLen) (List UInt8) (Act nameLen) where
  sent n := n.station.node.history.toRequester
  back n := n.station.node.history.toResponder
  receive i data n := (Op.step (P i) (.input data) n.station.node).map fun cb =>
    { n with station := n.station.withNode cb }
  hear i data n := (Op.step (P i) (.input data) n.station.node).map fun cb =>
    { n with station := n.station.withNode cb }
  act i a n := (a.step (P i) n.station).map fun station =>
    { station := station, read := n.read ++ Act.reads a }

/-- The tunnel is read at the first station, while offsets last; nobody requests anything. -/
def Streaming (i : Nat) (n : Relay F nameLen) : Act nameLen → Prop
  | .call .flush | .call .update | .call (.cacheRead _ _ _) | .call (.cacheInsert _ _ _ _)
  | .round => True
  | .call _ => False
  | .tunnel _ size => i = 0 ∧ (1 ≤ size.toInt ∧ size.toInt ≤ 1449) ∧
      n.station.packetId.toUInt32.toNat + size.toUInt32.toNat < 2 ^ 32

instance decidableStreaming (i : Nat) (n : Relay F nameLen) :
    ∀ a : Act nameLen, Decidable (Streaming i n a)
  | .call .flush | .call .update | .call (.cacheRead _ _ _) | .call (.cacheInsert _ _ _ _)
  | .round => inferInstanceAs (Decidable True)
  | .call (.request _ _) | .call (.insertData _ _ _) | .call (.input _) | .call (.parseInt _ _)
  | .call (.notifyNewData _ _ _) | .call (.sendData _ _ _) | .call (.sendDataHeader _ _)
  | .call (.parseData _ _) | .call (.recv _) => inferInstanceAs (Decidable False)
  | .tunnel _ _ => inferInstanceAs (Decidable (_ ∧ (_ ∧ _) ∧ _))

/-- What a station was given is kept for its application or was handed on, in order. -/
structure Holds (role : Role) (before : List (List UInt8)) (got : List Piece)
    (app : Consumer F nameLen) : Prop where
  order : InOrder role app.node
  kept : ∃ gone queue, got = gone ++ queue ∧ app.handed = gone.map Piece.data ∧
    Carries role before got queue app.node

/-- The first station: where the stream started, how far it has come, and what it carries. -/
structure Source (first : UInt32) (got : List Piece) (n : Relay F nameLen) : Prop where
  stream : Stream first got
  packetId : n.station.packetId.toUInt32 = cursor first got
  read : n.read = got.flatMap Piece.data

/-- Station `i` of a chain, which had sent nothing or more. -/
structure Carrier (first : UInt32) (role : Nat → Role) (i : Nat) (got : List Piece)
    (n : Relay F nameLen) : Prop where
  holds : Holds (role i) [] got n.station.app
  source : i = 0 → Source first got n

section Stations

variable {first : UInt32} {app : Consumer F nameLen} (stream : Stream first got)
  (h : Holds role before got app)

include stream

lemma segment_follows {seg : IntcpSeg} (mem : piece seg ∈ got) :
    Follows seg.rangeStart (piece seg) :=
  stream.follows (piece seg) mem

include h

/-- What was queued is the stream, if anything. -/
lemma Holds.queued : ∀ seg ∈ app.node.history.queued, seg.len ≤ intcpMss := by
  obtain ⟨gone, queue, _, _, hcarries⟩ := h.kept
  intro seg hseg
  have hmem : piece seg ∈ app.node.history.queued.map piece := List.mem_map_of_mem hseg
  rw [hcarries.queued] at hmem
  split at hmem
  · cases hmem
  · exact (follows_segment (segment_follows stream hmem)).2.2.1

/-- What was sent downstream is the front of what was given. -/
lemma Holds.emits : (app.node.history.toRequester).flatMap items <+: got := by
  obtain ⟨groups, packed⟩ := h.order.packed (h.queued stream)
  obtain ⟨departed, hqueued, horder⟩ := packed.order
  obtain ⟨gone, queue, _, _, hcarries⟩ := h.kept
  rw [List.append_nil] at horder
  have hgroup : ∀ group ∈ groups, items (group.flatMap frame) = group.map piece := by
    intro group hg
    have hsendable : ∀ seg ∈ group, Sendable seg := fun seg hseg =>
      (packed.sendable seg (List.mem_append_left _ (List.mem_flatten.mpr ⟨group, hg, hseg⟩))).1
    rw [items, decode_frames 0 hsendable, List.map_map]
    rfl
  have hitems : (app.node.history.toRequester).flatMap items = groups.flatten.map piece := by
    rw [packed.datagrams, List.flatMap_map, List.flatMap_def, List.map_congr_left hgroup,
      List.map_flatten]
  have hsame : groups.flatten.map piece = departed.map piece := by
    refine List.forall₂_eq_eq_eq ▸ ?_
    refine List.forall₂_map_left_iff.mpr (List.forall₂_map_right_iff.mpr (horder.imp ?_))
    intro a b forwarded
    simp only [piece, forwarded.cmd, forwarded.rangeStart, forwarded.rangeEnd, forwarded.data]
  have hprefix : departed.map piece <+: app.node.history.queued.map piece := by
    rw [hqueued, List.map_append]
    exact List.prefix_append _ _
  rw [hitems, hsame]
  refine hprefix.trans ?_
  rw [hcarries.queued]
  split
  · exact List.nil_prefix
  · exact List.prefix_rfl

/-- The head of the queue is handed on. -/
lemma Holds.took {seg : IntcpSeg} {rest : List IntcpSeg} (arrived : app.node.rcvQueue = seg :: rest) :
    RecvDrain.Whole seg ∧ seg.rangeStart < seg.rangeEnd ∧ seg.len ≤ intcpMss ∧
      ∀ cache app', app'.node = { app.node with rcvQueue := rest, cache := cache } →
        app'.handed = app.handed ++ [seg.data] → Holds role before got app' := by
  obtain ⟨gone, queue, hgot, hhanded, hcarries⟩ := h.kept
  have hwaiting := hcarries.waiting
  rw [arrived, List.map_cons] at hwaiting
  have hmem : piece seg ∈ got := by
    rw [hgot, ← hwaiting]
    exact List.mem_append_right _ List.mem_cons_self
  obtain ⟨hrange, _, hshort, hless⟩ := follows_segment (segment_follows stream hmem)
  have hsize : 23 + seg.len.toNat ≤ bufSize := by
    rw [UInt32.le_iff_toNat_le, toNat_intcpMss] at hshort
    rw [bufSize]
    omega
  refine ⟨⟨hrange, hsize⟩, hless, hshort, ?_⟩
  intro cache app' hnode hnew
  refine ⟨?_, gone ++ [piece seg], rest.map piece, ?_, ?_, ?_⟩
  · rw [hnode]
    exact h.order
  · rw [hgot, ← hwaiting, List.append_assoc, List.singleton_append]
  · rw [hnew, hhanded, List.map_append, List.map_singleton]
    rfl
  · rw [hnode]
    exact ⟨hcarries.sameRole, hcarries.live, hcarries.noInts, hcarries.noBytes, hcarries.noHoles,
      hcarries.next, hcarries.moved, rfl, hcarries.queued, hcarries.quiet, hcarries.grows⟩

lemma Holds.round {app' : Consumer F nameLen} (hround : NetworkIntegrity.round app = some app') :
    Holds role before got app' := by
  cases hqueue : app.node.rcvQueue with
  | nil =>
    have hsame : NetworkIntegrity.round app = some app := by
      rw [NetworkIntegrity.round]
      split
      · exact consume_empty hqueue _ _
      · exact consume_empty hqueue _ _
      · rfl
    rw [hsame] at hround
    cases hround
    exact h
  | cons seg rest =>
    obtain ⟨whole, hless, hshort, htook⟩ := h.took stream hqueue
    rw [NetworkIntegrity.round] at hround
    split at hround
    · rename_i hrole
      have other : app.node.nodeRole ≠ .responder := by
        rw [hrole]
        decide
      have hfits : seg.len ≤ intcpMss.toInt32.toUInt32 := hshort
      rw [consume_fits other hqueue whole hfits] at hround
      obtain ⟨st', hwrite, hnode, hhanded⟩ := writeToHost_took app rest whole
      obtain rfl := Option.some.inj (hround.symm.trans hwrite)
      refine htook app.node.cache app' hnode ?_
      rw [hhanded, List.filter_cons_of_pos (by simpa using hless), List.filter_nil,
        List.map_singleton]
    · rename_i hrole
      have other : app.node.nodeRole ≠ .responder := by
        rw [hrole]
        decide
      rw [consume_fits other hqueue whole (onNewSess_fits whole),
        insertIntoCache_took app rest whole] at hround
      obtain ⟨cache, _, rfl⟩ := Option.map_eq_some_iff.mp hround
      exact htook cache _ rfl rfl
    · cases hround
      exact h

end Stations

lemma Holds.mark {app : Consumer F nameLen} (h : Holds role before got app)
    {later : List (List UInt8)} (grows : later <+: app.node.history.toRequester) :
    Holds role later got app := by
  obtain ⟨gone, queue, hgot, hhanded, hcarries⟩ := h.kept
  exact ⟨h.order, gone, queue, hgot, hhanded, hcarries.sameRole, hcarries.live, hcarries.noInts,
    hcarries.noBytes, hcarries.noHoles, hcarries.next, hcarries.moved, hcarries.waiting,
    hcarries.queued, hcarries.quiet, grows⟩

lemma Holds.grown {app : Consumer F nameLen} (h : Holds role before got app) :
    before <+: app.node.history.toRequester := by
  obtain ⟨_, _, _, _, hcarries⟩ := h.kept
  exact hcarries.grows

lemma Holds.live {app : Consumer F nameLen} (h : Holds role before got app) : app.node.state ≠ -1 := by
  obtain ⟨_, _, _, _, hcarries⟩ := h.kept
  exact hcarries.live

lemma Holds.input {app : Consumer F nameLen} (h : Holds role before got app) {first : UInt32}
    {data : List UInt8} (stream : Stream first (got ++ items data)) :
    Holds role before (got ++ items data) { app with node := (input P app.node data).2 } := by
  obtain ⟨gone, queue, hgot, hhanded, hcarries⟩ := h.kept
  refine ⟨inOrder_input h.order data, gone, queue ++ items data, ?_, hhanded,
    carries_input hcarries stream⟩
  rw [← List.append_assoc, ← hgot]

lemma Holds.hear {app : Consumer F nameLen} (h : Holds role before got app) {data : List UInt8}
    (quiet : Quiet data) :
    Holds role before got { app with node := (NodeCore.input P app.node data).2 } := by
  obtain ⟨gone, queue, hgot, hhanded, hcarries⟩ := h.kept
  exact ⟨inOrder_input h.order data, gone, queue, hgot, hhanded, carries_quiet hcarries quiet⟩

lemma Holds.call {i : Nat} {n : Relay F nameLen} (h : Holds role before got n.station.app)
    {op : Op nameLen} (streaming : Streaming i n (.call op)) {cb : IntcpTransCB F nameLen}
    (hact : op.act P n.station.node = some cb) :
    Holds role before got { n.station.app with node := cb } := by
  obtain ⟨gone, queue, hgot, hhanded, hcarries⟩ := h.kept
  have hlive : n.station.node.state ≠ -1 := h.live
  have hstep : op.step P n.station.node = some cb := by
    rw [Op.step, if_neg hlive]
    exact hact
  have hwhole : GivesWhole op := by
    cases op with
    | parseData _ _ => exact streaming.elim
    | _ => trivial
  refine ⟨step_inOrder hwhole h.order hstep, gone, queue, hgot, hhanded, ?_⟩
  cases op with
  | flush => exact carries_flush hcarries hact
  | update => exact carries_update hcarries hact
  | cacheInsert other s e buffer =>
    obtain ⟨cache, _, rfl⟩ := Option.map_eq_some_iff.mp hact
    exact hcarries
  | cacheRead other s e =>
    cases hact
    exact hcarries
  | _ => exact streaming.elim

lemma items_frame {seg : IntcpSeg} (sendable : Sendable seg) : items (frame seg) = [piece seg] := by
  have hsends : ∀ x ∈ [seg], Sendable x := by simpa using sendable
  have hdecode := decode_frames 0 hsends
  rw [List.flatMap_singleton] at hdecode
  rw [items, hdecode]
  rfl

lemma tunnelSeg_follows {packetId size : Int32} (pt : Buffer)
    (length : 1 ≤ size.toInt ∧ size.toInt ≤ 1449)
    (room : packetId.toUInt32.toNat + size.toUInt32.toNat < 2 ^ 32) :
    Follows packetId.toUInt32 (piece (tunnelSeg P packetId size pt)) := by
  have hsize := toNat_toUInt32 size
  rw [if_pos (by omega)] at hsize
  have hdata : (piece (tunnelSeg P packetId size pt)).data.length = size.toUInt32.toNat :=
    pt.length_bytes _
  refine ⟨rfl, rfl, ?_, ?_, ?_⟩
  · rw [hdata]
    have hstop : (piece (tunnelSeg P packetId size pt)).stop = packetId.toUInt32 + size.toUInt32 :=
      Int32.toUInt32_add ..
    rw [hstop]
    exact toNat_add_small room
  · omega
  · omega

lemma Source.tunnel {first : UInt32} {n : Relay F nameLen} {size : Int32}
    (source : Source first got n) (h : Holds role before got n.station.app) (pt : Buffer)
    (length : 1 ≤ size.toInt ∧ size.toInt ≤ 1449)
    (room : n.station.packetId.toUInt32.toNat + size.toUInt32.toNat < 2 ^ 32)
    {sess : IntcpSess F nameLen}
    (hchunk : sendChunk P ⟨n.station.packetId, n.station.node, []⟩ pt size = some sess) :
    let p := piece (tunnelSeg P n.station.packetId size pt)
    let station := { n.station.withNode sess.transCB with packetId := sess.packetId }
    Holds role before (got ++ [p]) station.app ∧
      Source first (got ++ [p]) ⟨station, n.read ++ pt.bytes size.toUInt32.toNat⟩ := by
  have follows := tunnelSeg_follows (P := P) pt length room
  obtain ⟨cache, _, rfl⟩ := Option.map_eq_some_iff.mp hchunk
  obtain ⟨hrange, _, hshort, _⟩ := follows_segment follows
  have hsendable : Sendable (tunnelSeg P n.station.packetId size pt) :=
    sendable_whole ⟨rfl, .inr hrange⟩ hshort
  have hitems : items (sndbuftmp (tunnelSeg P n.station.packetId size pt)) =
      [piece (tunnelSeg P n.station.packetId size pt)] := by
    rw [sndbuftmp_eq, items_frame hsendable]
  have hstream : Stream first (got ++ [piece (tunnelSeg P n.station.packetId size pt)]) := by
    refine stream_append.mpr ⟨source.stream, ?_, trivial⟩
    rw [← source.packetId]
    exact follows
  have hcached : Holds role before got { n.station.app with node := withCache n.station.node cache } :=
    ⟨h.order, h.kept⟩
  refine ⟨?_, hstream, ?_, ?_⟩
  · rw [← hitems] at hstream ⊢
    exact hcached.input hstream
  · rw [cursor_append]
    rfl
  · rw [source.read, List.flatMap_append, List.flatMap_singleton]
    rfl

theorem relays (P : Nat → Platform F) (first : UInt32) (role : Nat → Role) :
    Relays (chain P) items (Stream first) Quiet (@Carrier F nameLen first role)
      Streaming := by
  refine ⟨fun hprefix stream => stream.of_prefix hprefix, fun h => (h.source rfl).stream,
    fun h stream => h.holds.emits stream, ?_, ?_, ?_, ?_⟩
  · intro i got n h
    obtain ⟨_, _, _, _, hcarries⟩ := h.holds.kept
    exact hcarries.quiet
  · intro i got n n' data h stream hstep
    have hlive : n.station.node.state ≠ -1 := h.holds.live
    obtain ⟨cb, hinput, rfl⟩ := Option.map_eq_some_iff.mp hstep
    rw [Op.step, if_neg hlive] at hinput
    cases hinput
    exact ⟨⟨h.holds.input stream, fun hi => absurd hi (Nat.succ_ne_zero i)⟩,
      ((h.holds.mark List.prefix_rfl).input stream).grown⟩
  · intro i got n n' data h stream quiet hstep
    have hlive : n.station.node.state ≠ -1 := h.holds.live
    obtain ⟨cb, hinput, rfl⟩ := Option.map_eq_some_iff.mp hstep
    rw [Op.step, if_neg hlive] at hinput
    cases hinput
    refine ⟨⟨h.holds.hear quiet, fun hi => ?_⟩, ((h.holds.mark List.prefix_rfl).hear quiet).grown⟩
    exact ⟨(h.source hi).stream, (h.source hi).packetId, (h.source hi).read⟩
  · intro i got n n' a h stream streaming hstep
    have hlive : ¬ n.station.node.state = -1 := h.holds.live
    obtain ⟨station, hact, rfl⟩ := Option.map_eq_some_iff.mp hstep
    unfold Act.step at hact
    rw [if_neg hlive] at hact
    have hsource : ∀ {station' : Station F nameLen}, station'.packetId = n.station.packetId →
        i = 0 → Source first (got ++ []) ⟨station', n.read ++ []⟩ := by
      intro station' hid hi
      rw [List.append_nil, List.append_nil]
      exact ⟨(h.source hi).stream, hid ▸ (h.source hi).packetId, (h.source hi).read⟩
    cases a with
    | call op =>
      obtain ⟨cb, hcb, rfl⟩ := Option.map_eq_some_iff.mp hact
      refine ⟨[], ⟨?_, hsource rfl⟩, fun _ => rfl, ?_⟩
      · rw [List.append_nil]
        exact h.holds.call streaming hcb
      · exact ((h.holds.mark List.prefix_rfl).call streaming hcb).grown
    | round =>
      obtain ⟨app, happ, rfl⟩ := Option.map_eq_some_iff.mp hact
      refine ⟨[], ⟨?_, hsource rfl⟩, fun _ => rfl, ?_⟩
      · rw [List.append_nil]
        exact h.holds.round stream happ
      · exact ((h.holds.mark List.prefix_rfl).round stream happ).grown
    | tunnel pt size =>
      obtain ⟨hi, hlength, hroom⟩ := streaming
      obtain ⟨sess, hchunk, rfl⟩ := Option.map_eq_some_iff.mp hact
      obtain ⟨hholds, hnew⟩ := (h.source hi).tunnel h.holds pt hlength hroom hchunk
      refine ⟨_, ⟨hholds, fun _ => hnew⟩, fun hne => absurd hi hne, ?_⟩
      exact ((h.source hi).tunnel (h.holds.mark List.prefix_rfl) pt hlength hroom hchunk).1.grown

/-- The stations before anything happens. -/
def chainStart (P : Nat → Platform F) (role : Nat → Role) (name : Vector UInt8 nameLen)
    (cache : Nat → Cache nameLen) (packetId : Nat → Int32) (i : Nat) : Place (Relay F nameLen) where
  node := { station := Station.start (P i) (role i) name (cache i) (packetId i), read := [] }
  taken := 0

/-- What a station has handed on is the front of what the first one has read; it has seen no
hole, and has asked for nothing. -/
structure Delivered (read : List UInt8) (st : Station F nameLen) : Prop where
  handed : st.app.handed.flatten <+: read
  noHoles : st.node.dataHoles = []
  quiet : ∀ data ∈ st.node.history.toResponder, Quiet data

lemma flatMap_prefix {α β : Type} (f : α → List β) {l m : List α} (h : l <+: m) :
    l.flatMap f <+: m.flatMap f := by
  obtain ⟨later, rfl⟩ := h
  rw [List.flatMap_append]
  exact List.prefix_append _ _

/-- Along a chain of any length, whatever roles its stations have and however they take turns. -/
theorem run_delivered (P : Nat → Platform F) (role : Nat → Role) (name : Vector UInt8 nameLen)
    (cache : Nat → Cache nameLen) (packetId : Nat → Int32)
    {events : List (FifoChain.Event (List UInt8) (Act nameLen))}
    (possible : Along (FifoChain.step (chain P)) (FifoChain.Possible (chain P) Streaming)
      (chainStart P role name cache packetId) events)
    {places : Nat → Place (Relay F nameLen)}
    (reached : run (FifoChain.step (chain P)) (chainStart P role name cache packetId) events =
      some places) :
    ∀ i, Delivered (places 0).node.read (places i).node.station := by
  have hrelays := @relays F nameLen P (packetId 0).toUInt32 role
  have initially : ∀ i, Carrier (packetId 0).toUInt32 role i []
      (chainStart P role name cache packetId i).node := by
    intro i
    refine ⟨⟨inOrder_create (role i) name (cache i), [], [], rfl, rfl,
      carries_create (role i) name (cache i)⟩, ?_⟩
    rintro rfl
    exact ⟨trivial, rfl, rfl⟩
  obtain ⟨got, linked, hfront⟩ := run_linked hrelays initially (fun _ => rfl) possible reached
  intro i
  obtain ⟨gone, queue, hgot, hhanded, hcarries⟩ := (linked.inv i).holds.kept
  refine ⟨?_, hcarries.noHoles, hcarries.quiet⟩
  have hgone : gone <+: got 0 := by
    refine List.IsPrefix.trans ?_ (hfront i)
    rw [hgot]
    exact List.prefix_append _ _
  rw [hhanded, ← List.flatMap_def, ((linked.inv 0).source rfl).read]
  exact flatMap_prefix Piece.data hgone

/-- Two reads at one end; the other end has written the first of them. -/
def tunnelEvents : List (FifoChain.Event (List UInt8) (Act 1)) :=
  [.act 0 (.tunnel (fun i => UInt8.ofNat (7 + i)) 3), .act 0 (.call .update), .pass 0,
    .act 0 (.tunnel (fun i => UInt8.ofNat (50 + i)) 2), .act 1 .round, .act 1 (.call .update),
    .pass 1, .act 2 .round, .act 0 (.call .update), .pass 0, .pass 1]

def tunnelRole (i : Nat) : Role :=
  if i = 0 then .responder else if i = 1 then .midnode else .requester

theorem tunnel_delivered :
    ∃ places, run (FifoChain.step (chain fun _ => freeClock)) (chainStart (fun _ => freeClock)
        tunnelRole #v[110] (fun _ => Cache.fresh fun _ _ => 0) fun _ => 7) tunnelEvents = some places ∧
      (places 0).node.read = [7, 8, 9, 50, 51] ∧
      (places 2).node.station.app.handed = [[7, 8, 9]] ∧
      ∀ i, Delivered (places 0).node.read (places i).node.station := by
  have hends : (run (FifoChain.step (chain fun _ => freeClock)) (chainStart (fun _ => freeClock)
      tunnelRole #v[110] (fun _ => Cache.fresh fun _ _ => 0) fun _ => 7) tunnelEvents).map
        (fun places => ((places 0).node.read, (places 2).node.station.app.handed)) =
      some ([7, 8, 9, 50, 51], [[7, 8, 9]]) := by
    decide +kernel
  obtain ⟨places, hrun, hboth⟩ := Option.map_eq_some_iff.mp hends
  obtain ⟨hread, hhanded⟩ := Prod.mk.inj hboth
  exact ⟨places, hrun, hread, hhanded,
    run_delivered _ tunnelRole #v[110] _ _ (by decide +kernel) hrun⟩

end StreamDelivery
