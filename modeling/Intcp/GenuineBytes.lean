import Intcp.DataFifo
import Intcp.InterestFifo
import Intcp.PendingInterests
import Intcp.SentRanges

/-!
# Genuine bytes at one node

A name stands for one sequence of bytes. A node is authentic if the bytes that it
caches under the name, queues, keeps for its application and announces are those
of the sequence. Whatever comes from authentic nodes, in whatever order, leaves a
node authentic, and so do its timers and the data that its own application adds.
-/

namespace GenuineBytes

open FuelledLoop Words BlockCache LruOrder CacheContents TransControl SegmentCodec RateControl DataPlane
  HoleTracking InterestPlane NodeCore CallRules LastWrite PendingInterests SentRanges DataFifo
  InterestFifo

universe u
variable {F : Type u} {nameLen : Nat} {P : Platform F} {content : UInt32 → UInt8}
  {name : Vector UInt8 nameLen}

/-- The buffer holds the bytes of the range from its front on. -/
def Supplies (content : UInt32 → UInt8) (buffer : Buffer) (s e : UInt32) : Prop :=
  ∀ o, s ≤ o → o < e → buffer (o - s).toNat = content o

/-- A data segment whose payload are the bytes of its range, below the last cache block. -/
structure Genuine (content : UInt32 → UInt8) (seg : IntcpSeg) : Prop where
  chunk : Chunk (fun o v => v = content o) seg.rangeStart seg
  top : seg.rangeEnd.toNat ≤ 2 ^ 32 - 4096

/-- An interest, a header or genuine data. -/
def Harmless (content : UInt32 → UInt8) (s : IntcpSeg) : Prop :=
  s.cmd = intcpCmdInt ∨ s.len = 0 ∨ Genuine content s

/-- Whatever memory holds at its receiver, every segment of the datagram is harmless. -/
def HarmlessDatagram (content : UInt32 → UInt8) (data : List UInt8) : Prop :=
  ∀ raw, ∀ s ∈ (decode raw data).2, Harmless content s

/-- Nothing of it is lost by what a sender stamps or a receiver rebuilds. -/
lemma Genuine.of_same {seg got : IntcpSeg} (genuine : Genuine content seg) (cmd : got.cmd = seg.cmd)
    (len : got.len = seg.len) (start : got.rangeStart = seg.rangeStart)
    (stop : got.rangeEnd = seg.rangeEnd) (data : got.data = seg.data) : Genuine content got := by
  have hchunk := genuine.chunk
  refine ⟨⟨cmd.trans hchunk.command, rfl, ?_, ?_, ?_, ?_⟩, stop ▸ genuine.top⟩
  · rw [len]
    exact hchunk.nonempty
  · rw [len]
    exact hchunk.size
  · rw [stop, start, len]
    exact hchunk.stop
  · intro i hi
    rw [start]
    simp only [data]
    exact hchunk.payload i (data ▸ hi)

/-- A genuine segment passes the checks of `input`. -/
lemma Genuine.whole {seg : IntcpSeg} (genuine : Genuine content seg) :
    seg.rangeEnd - seg.rangeStart = seg.len ∧ seg.len ≠ 0 ∧ seg.rangeStart < seg.rangeEnd := by
  have hstop := genuine.chunk.stop
  have hpos := genuine.chunk.nonempty
  have hlt : seg.rangeStart < seg.rangeEnd := by
    rw [UInt32.lt_iff_toNat_lt]
    omega
  refine ⟨?_, ?_, hlt⟩
  · rw [← UInt32.toNat_inj, toNat_sub_of_le (UInt32.le_of_lt hlt)]
    omega
  · intro hzero
    rw [hzero] at hpos
    exact absurd hpos (by decide)

lemma Genuine.proper {seg : IntcpSeg} (genuine : Genuine content seg) :
    Proper seg.rangeStart seg.rangeEnd :=
  ⟨genuine.whole.2.2, genuine.top⟩

/-- The payload, copied to the front of a buffer, supplies the range. -/
lemma Genuine.supplies {seg : IntcpSeg} (genuine : Genuine content seg) {buffer : Buffer}
    (front : ∀ i (h : i < seg.data.length), buffer i = seg.data[i]) :
    Supplies content buffer seg.rangeStart seg.rangeEnd := by
  intro o hs ho
  have hchunk := genuine.chunk
  have hstop := hchunk.stop
  rw [UInt32.lt_iff_toNat_lt] at ho
  have hdistance := toNat_sub_of_le hs
  rw [UInt32.le_iff_toNat_le] at hs
  have hindex : (o - seg.rangeStart).toNat < seg.data.length := by
    rw [seg.dataLen]
    omega
  have hoffset : seg.rangeStart + UInt32.ofNat (o - seg.rangeStart).toNat = o := by
    rw [← UInt32.toNat_inj, hchunk.offset hindex]
    omega
  rw [front _ hindex, hchunk.payload _ hindex, hoffset]

lemma covers_genuine {a b : UInt32} {segs : List IntcpSeg}
    (covers : Covers (fun o v => v = content o) a segs b) (top : b.toNat ≤ 2 ^ 32 - 4096) :
    ∀ seg ∈ segs, Genuine content seg := by
  induction segs generalizing a with
  | nil => simp
  | cons seg rest ih =>
    obtain ⟨chunk, hrest⟩ := covers
    have hlast := UInt32.le_iff_toNat_le.mp hrest.le
    refine List.forall_mem_cons.mpr ⟨⟨?_, by omega⟩, ih hrest⟩
    rw [chunk.start]
    exact chunk

/-- `sendData` cuts a buffer that supplies its range into genuine segments. -/
lemma sentSegs_genuine {buffer : Buffer} {a b : UInt32} (before : a < b)
    (top : b.toNat ≤ 2 ^ 32 - 4096) (supplies : Supplies content buffer a b) :
    ∀ seg ∈ sentSegs P buffer a b, Genuine content seg := by
  by_cases small : b.toNat - a.toNat < 2 ^ 31
  · refine covers_genuine ((sentSegs_covers buffer before small).mono ?_) top
    intro o v ho hb hv
    exact hv.trans (supplies o ho hb)
  · -- the length is negative as an `int`, and nothing is sent
    have hlen := toNat_sub_of_le (UInt32.le_of_lt before)
    have hb := b.toNat_lt
    have hnegative : (b - a).toInt32 ≤ 0 := by
      have hword := toNat_toUInt32 (b - a).toInt32
      have hbound := (b - a).toInt32.toInt_lt
      rw [UInt32.toUInt32_toInt32] at hword
      rw [Int32.le_iff_toInt_le, Int32.toInt_zero]
      split at hword <;> omega
    rw [sentSegs, if_pos hnegative]
    simp

/-- The parts of a node that carry bytes under the name. -/
structure Holding (content : UInt32 → UInt8) (name nameChars : Vector UInt8 nameLen)
    (cache : Cache nameLen) (pendingInts : List ByteRange) (rcvBuf rcvQueue : List IntcpSeg)
    (queued : List IntcpSeg) (toResponder : List (List UInt8)) : Prop where
  sameName : nameChars = name
  wellFormed : WellFormed cache
  free : TopFree cache name
  cached : ∀ o v, Cached cache name o v → v = content o
  pending : ∀ p ∈ pendingInts, p.startByte < p.endByte
  buffered : ∀ seg ∈ rcvBuf, Genuine content seg
  arrived : ∀ seg ∈ rcvQueue, Genuine content seg
  queued : ∀ seg ∈ queued, seg.cmd = intcpCmdPush ∧ (seg.len = 0 ∨ Genuine content seg)
  asked : ∀ data ∈ toResponder, HarmlessDatagram content data

abbrev Authentic (content : UInt32 → UInt8) (name : Vector UInt8 nameLen)
    (cb : IntcpTransCB F nameLen) : Prop :=
  Holding content name cb.nameChars cb.cache cb.pendingInts cb.rcvBuf cb.rcvQueue
    cb.history.queued cb.history.toResponder

lemma authentic_create (role : Role) {cache : Cache nameLen} (wf : WellFormed cache)
    (free : TopFree cache name) (cached : ∀ o v, Cached cache name o v → v = content o) :
    Authentic content name (IntcpTransCB.create P role name cache) :=
  ⟨rfl, wf, free, cached, nofun, nofun, nofun, nofun, nofun⟩

lemma authentic_enqueueAll {cb : IntcpTransCB F nameLen} (h : Authentic content name cb)
    {segs : List IntcpSeg}
    (segs_ok : ∀ seg ∈ segs, seg.cmd = intcpCmdPush ∧ (seg.len = 0 ∨ Genuine content seg)) :
    Authentic content name (enqueueAll cb segs) := by
  refine ⟨h.sameName, h.wellFormed, h.free, h.cached, h.pending, h.buffered, h.arrived, ?_, h.asked⟩
  intro seg hseg
  rcases List.mem_append.mp hseg with hseg | hseg
  · exact h.queued seg hseg
  · exact segs_ok seg hseg

lemma authentic_send {cb : IntcpTransCB F nameLen} (h : Authentic content name cb)
    {buffer : Buffer} {a b : UInt32} (before : a < b) (top : b.toNat ≤ 2 ^ 32 - 4096)
    (supplies : Supplies content buffer a b) :
    Authentic content name (enqueueAll cb (sentSegs P buffer a b)) := by
  apply authentic_enqueueAll h
  intro seg hseg
  have genuine := sentSegs_genuine before top supplies seg hseg
  exact ⟨genuine.chunk.command, .inr genuine⟩

/-- An interest carries no bytes. -/
lemma harmless_interest (cb : IntcpTransCB F nameLen) (s e : UInt32) :
    HarmlessDatagram content (intDatagram P cb s e) := by
  intro raw x hx
  obtain ⟨got, hdecode, hcmd, _, _⟩ := decode_intDatagram (P := P) cb s e
  rw [decode_raw P.raw raw, hdecode] at hx
  rw [List.mem_singleton.mp hx]
  exact .inl hcmd

lemma authentic_outputInt {cb : IntcpTransCB F nameLen} (h : Authentic content name cb)
    (s e : UInt32) : Authentic content name (outputInt P cb s e) := by
  rw [outputInt_eq]
  refine ⟨h.sameName, h.wellFormed, h.free, h.cached, h.pending, h.buffered, h.arrived, h.queued, ?_⟩
  intro data hdata
  rcases List.mem_append.mp hdata with hdata | hdata
  · exact h.asked data hdata
  · rw [List.mem_singleton.mp hdata]
    exact harmless_interest cb s e

lemma authentic_request {cb : IntcpTransCB F nameLen} (h : Authentic content name cb)
    (s e : UInt32) : Authentic content name (request P cb s e).2 := by
  simp only [request]
  split
  · exact h
  · split
    · exact h
    · exact h

/-- What `fetchData` delivers are bytes of the sequence, none of them in the last block. -/
structure Served (content : UInt32 → UInt8) (name : Vector UInt8 nameLen) (s e : UInt32)
    (got : UInt32 × Buffer × IntcpTransCB F nameLen) : Prop where
  node : Authentic content name got.2.2
  within : got.1.toNat ≤ e.toNat - s.toNat
  top : got.1 ≠ 0 → s.toNat + got.1.toNat ≤ 2 ^ 32 - 4096
  bytes : Supplies content got.2.1 s (s + got.1)

lemma authentic_looked {cb cb' : IntcpTransCB F nameLen} (h : Authentic content name cb)
    {cache : Cache nameLen} (same : cache.dataMap = cb.cache.dataMap) (wf : WellFormed cache)
    (eq : cb' = { cb with cache := cache }) : Authentic content name cb' := by
  subst eq
  refine ⟨h.sameName, wf, ?_, ?_, h.pending, h.buffered, h.arrived, h.queued, h.asked⟩
  · rw [TopFree, same]
    exact h.free
  · intro o v hcached
    exact h.cached o v ((cached_of_same same).mp hcached)

/-- A read of any range, under any name, moves no byte. -/
lemma read_kept {c : Cache nameLen} (wf : WellFormed c) (other : Vector UInt8 nameLen)
    (s e : UInt32) (dataBuf : Buffer) :
    (BlockCache.read c other s e dataBuf).cache.dataMap = c.dataMap ∧
      WellFormed (BlockCache.read c other s e dataBuf).cache := by
  refine loop_getD_invariant
    (fun st : Reading nameLen × UInt32 => st.1.cache.dataMap = c.dataMap ∧ WellFormed st.1.cache)
    (fun rd : Reading nameLen => rd.cache.dataMap = c.dataMap ∧ WellFormed rd.cache)
    ?_ ?_ ⟨rfl, wf⟩ ⟨rfl, wf⟩
  · rintro ⟨rd, b⟩ st ⟨hsame, hwf⟩ hpass
    rcases readPass_moved other s e rd b with hleave | ⟨block, resident, _, _, hleave | hagain⟩
    · cases hpass.symm.trans hleave
    · cases hpass.symm.trans hleave
    · cases hpass.symm.trans hagain
      exact ⟨hsame, updateLRU_wellFormed hwf resident⟩
  · rintro ⟨rd, b⟩ r ⟨hsame, hwf⟩ hpass
    rcases readPass_moved other s e rd b with hleave | ⟨block, resident, _, _, hleave | hagain⟩
    · cases hpass.symm.trans hleave
      exact ⟨hsame, hwf⟩
    · cases hpass.symm.trans hleave
      exact ⟨hsame, updateLRU_wellFormed hwf resident⟩
    · cases hpass.symm.trans hagain

lemma fetchData_served {cb : IntcpTransCB F nameLen} (h : Authentic content name cb) {s e : UInt32}
    (proper : s < e) : Served content name s e (fetchData cb s e) := by
  have hname := h.sameName
  have hfree : TopFree cb.cache cb.nameChars := hname ▸ h.free
  have delivers := read_delivers h.wellFormed cb.nameChars proper (.inr hfree) fun _ => 0
  have hwithin := delivers.within
  have hend := e.toNat_lt
  have hlen : (fetchData cb s e).1.toNat =
      (BlockCache.read cb.cache cb.nameChars s e fun _ => 0).readlen := by
    have hsmall : (BlockCache.read cb.cache cb.nameChars s e fun _ => 0).readlen < 2 ^ 32 := by omega
    exact UInt32.toNat_ofNat_of_lt' hsmall
  have hbytes : ∀ o, s ≤ o → o.toNat < s.toNat + (fetchData cb s e).1.toNat →
      Cached cb.cache name o ((fetchData cb s e).2.1 (o - s).toNat) := by
    intro o hs ho
    rw [hlen] at ho
    exact hname ▸ delivers.bytes o hs ho
  have htop : (fetchData cb s e).1 ≠ 0 →
      s.toNat + (fetchData cb s e).1.toNat ≤ 2 ^ 32 - 4096 := by
    intro hsome
    have hpos : (fetchData cb s e).1.toNat ≠ 0 := fun hzero => hsome (UInt32.toNat_inj.mp hzero)
    have hlast : (s + ((fetchData cb s e).1 - 1)).toNat =
        s.toNat + (fetchData cb s e).1.toNat - 1 := by
      have hone : ((fetchData cb s e).1 - 1).toNat = (fetchData cb s e).1.toNat - 1 :=
        toNat_sub_of_le (by rw [UInt32.le_iff_toNat_le, UInt32.toNat_one]; omega)
      rw [toNat_add_small] <;> rw [hone] <;> omega
    by_contra hbeyond
    refine not_cached_top h.free (o := s + ((fetchData cb s e).1 - 1)) (by omega) _ (hbytes _ ?_ ?_)
    · rw [UInt32.le_iff_toNat_le]
      omega
    · omega
  refine ⟨authentic_looked h delivers.same delivers.wellFormed rfl, by omega, htop, ?_⟩
  intro o hs ho
  by_cases hnone : (fetchData cb s e).1 = 0
  · rw [hnone, UInt32.add_zero] at ho
    exact absurd (UInt32.lt_of_le_of_lt hs ho) (UInt32.lt_irrefl s)
  · have hroom := htop hnone
    rw [UInt32.lt_iff_toNat_lt, toNat_add_small (by omega)] at ho
    exact h.cached o _ (hbytes o hs ho)

/-- What was fetched can be sent on. -/
lemma Served.send {s e : UInt32} {got : UInt32 × Buffer × IntcpTransCB F nameLen}
    (served : Served content name s e got) (nonzero : got.1 ≠ 0) :
    Authentic content name (enqueueAll got.2.2 (sentSegs P got.2.1 s (s + got.1))) := by
  have htop := served.top nonzero
  have hpos : got.1.toNat ≠ 0 := fun hzero => nonzero (UInt32.toNat_inj.mp hzero)
  have hend : (s + got.1).toNat = s.toNat + got.1.toNat := toNat_add_small (by omega)
  refine authentic_send served.node ?_ (hend ▸ htop) served.bytes
  rw [UInt32.lt_iff_toNat_lt, hend]
  omega

/-- A round of the loop of `parseInt`, whatever the bounds of the interest. -/
lemma servePass_authentic (rangeEnd : UInt32) {st : Serving F nameLen}
    (h : Authentic content name st.cb) : match servePass P rangeEnd st with
      | .leave st' => Authentic content name st'.cb
      | .again st' => Authentic content name st'.cb := by
  rw [servePass]
  by_cases more : st.segStart < rangeEnd
  · rw [if_pos more]
    by_cases nowrap : st.segStart.toNat + 1449 < 2 ^ 32
    · have served := fetchData_served h (lt_partEnd nowrap more)
      simp only [sendData_eq]
      split
      · rename_i st' hpass
        split at hpass
        · cases hpass
          exact served.node
        · rename_i hsome
          split at hpass <;> cases hpass
          exact served.send hsome
      · rename_i st' hpass
        split at hpass
        · cases hpass
        · rename_i hsome
          split at hpass <;> cases hpass
          exact served.send hsome
    · obtain ⟨hnone, hsame⟩ := fetchData_wrapped st.cb rangeEnd (s := st.segStart) (by omega)
      simp only [hnone, if_true]
      rw [hsame]
      exact h
  · rw [if_neg more]
    exact h

lemma authentic_serve {cb : IntcpTransCB F nameLen} (h : Authentic content name cb) (s e : UInt32) :
    Authentic content name (serve P cb s e).cb := by
  rw [serve]
  split
  · refine loop_getD_invariant (fun st : Serving F nameLen => Authentic content name st.cb)
      (fun st : Serving F nameLen => Authentic content name st.cb) ?_ ?_ h h
    · intro st st' hst hpass
      have hround := servePass_authentic (P := P) e hst
      rw [hpass] at hround
      exact hround
    · intro st st' hst hpass
      have hround := servePass_authentic (P := P) e hst
      rw [hpass] at hround
      exact hround
  · exact h

lemma authentic_parseInt {cb : IntcpTransCB F nameLen} (h : Authentic content name cb)
    (s e : UInt32) : Authentic content name (parseInt P cb s e) := by
  have hserved := authentic_serve (P := P) h s e
  rw [parseInt]
  split
  · exact h
  · simp only
    split
    · rename_i hrest
      split
      · refine ⟨hserved.sameName, hserved.wellFormed, hserved.free, hserved.cached, ?_,
          hserved.buffered, hserved.arrived, hserved.queued, hserved.asked⟩
        intro p hp
        rcases List.mem_append.mp hp with hp | hp
        · exact hserved.pending p hp
        · rw [List.mem_singleton.mp hp]
          exact hrest
      · exact authentic_outputInt hserved _ _
      · exact authentic_request hserved _ _
    · exact hserved

/-- What a pending range has in common with new data is sent from the buffer at its offset. -/
lemma authentic_release {cb : IntcpTransCB F nameLen} (h : Authentic content name cb)
    {buffer : Buffer} {s e : UInt32} (data : Proper s e) (supplies : Supplies content buffer s e)
    {p : ByteRange} (proper : p.startByte < p.endByte) (meets : MeetsNew p s e) :
    Authentic content name (enqueueAll cb (sentSegs P
      (buffer.advance (imax p.startByte s - s).toNat) (imax p.startByte s) (imin p.endByte e))) := by
  obtain ⟨⟨hstart, hend⟩, _⟩ := (meetsNew_iff proper data.1).mp meets
  have hdata := UInt32.lt_iff_toNat_lt.mp data.1
  have htop := data.2
  rw [UInt32.lt_iff_toNat_lt] at proper hstart hend
  have hmax := toNat_imax p.startByte s
  have hmin := toNat_imin p.endByte e
  refine authentic_send h ?_ ?_ ?_
  · rw [UInt32.lt_iff_toNat_lt]
    omega
  · omega
  · intro o ho hlast
    have hfrom : s ≤ imax p.startByte s := by
      rw [UInt32.le_iff_toNat_le]
      omega
    have hoffset : (imax p.startByte s - s).toNat + (o - imax p.startByte s).toNat =
        (o - s).toNat := by
      rw [toNat_sub_of_le hfrom, toNat_sub_of_le ho, toNat_sub_of_le (UInt32.le_trans hfrom ho)]
      rw [UInt32.le_iff_toNat_le] at ho hfrom
      omega
    rw [Buffer.advance, hoffset]
    refine supplies o (UInt32.le_trans hfrom ho) ?_
    rw [UInt32.lt_iff_toNat_lt] at hlast ⊢
    omega

lemma authentic_releaseInts {buffer : Buffer} {s e : UInt32} (data : Proper s e)
    (supplies : Supplies content buffer s e) {cb : IntcpTransCB F nameLen}
    (h : Authentic content name cb) {pending : List ByteRange}
    (proper : ∀ p ∈ pending, p.startByte < p.endByte) :
    Authentic content name (releaseInts P buffer s e cb pending).1 := by
  induction pending generalizing cb with
  | nil => exact h
  | cons p rest ih =>
    obtain ⟨hp, hrest⟩ := List.forall_mem_cons.mp proper
    rw [releaseInts]
    split
    · rename_i meets
      simp only [sendData_eq]
      exact ih (authentic_release h data supplies hp meets) hrest
    · exact ih h hrest

lemma authentic_notifyNewData {cb : IntcpTransCB F nameLen} (h : Authentic content name cb)
    {buffer : Buffer} {s e : UInt32} (data : Proper s e) (supplies : Supplies content buffer s e) :
    Authentic content name (notifyNewData P cb buffer s e) := by
  have hreleased := authentic_releaseInts (P := P) data supplies h h.pending
  refine ⟨hreleased.sameName, hreleased.wellFormed, hreleased.free, hreleased.cached, ?_,
    hreleased.buffered, hreleased.arrived, hreleased.queued, hreleased.asked⟩
  intro q hq
  simp only [notifyNewData, releaseInts_pending, List.mem_flatMap] at hq
  obtain ⟨p, hp, hq⟩ := hq
  have hproper := h.pending p hp
  rw [left] at hq
  split at hq
  · rename_i meets
    exact (mem_remainder hproper ((meetsNew_iff hproper data.1).mp meets).1 hq).1
  · rw [List.mem_singleton.mp hq]
    exact hproper

lemma topFree_written {c c' : Cache nameLen} (wf : WellFormed c) {other : Vector UInt8 nameLen}
    (free : TopFree c name) {s e : UInt32} (data : Proper s e) {buffer : Buffer}
    (written : Written c other s e (firstBlock s) (blockCount (firstBlock s) e) buffer c') :
    TopFree c' name := by
  by_cases same : other = name
  · subst same
    exact written.topFree wf free data.1 data.2
  · by_contra hsome
    have hmem := (written.wellFormed.keys _).mp (Option.isSome_iff_ne_none.mpr hsome)
    rw [written.order] at hmem
    rcases mem_of_mem_enterAll hmem with hnew | hold
    · obtain ⟨b, hb, hkey⟩ := List.mem_map.mp hnew
      exact same (nameSeqToKey_injective (congrArg Node.blockIter hkey)).1
    · exact wf.indexed.not_mem free hold

/-- An insert that finds room, under the name or under another one. -/
lemma authentic_written {cb : IntcpTransCB F nameLen} (h : Authentic content name cb)
    {other : Vector UInt8 nameLen} {buffer : Buffer} {s e : UInt32} (data : Proper s e)
    (room : Room cb.cache other s e) (supplies : other = name → Supplies content buffer s e) :
    ∃ cache, BlockCache.insert cb.cache other s e buffer = some cache ∧
      Authentic content name { cb with cache := cache } := by
  obtain ⟨cache, hinsert, written⟩ := insert_written h.wellFormed data.1 data.2 buffer room
  refine ⟨cache, hinsert, h.sameName, written.wellFormed, ?_, ?_, h.pending, h.buffered, h.arrived,
    h.queued, h.asked⟩
  · exact topFree_written h.wellFormed h.free data written
  · intro o v hcached
    have hview := written.sound_range hcached
    split at hview
    · rename_i hin
      obtain ⟨rfl, hs, he⟩ := hin
      rw [← hview]
      exact supplies rfl o hs he
    · exact h.cached o v hview

lemma authentic_header {cb : IntcpTransCB F nameLen} (h : Authentic content name cb)
    (s e : UInt32) : Authentic content name (sendDataHeader P cb s e) := by
  rw [sendDataHeader, enqueue_eq]
  refine authentic_enqueueAll h ?_
  intro seg hseg
  rw [List.mem_singleton.mp hseg]
  exact ⟨rfl, .inl rfl⟩

lemma authentic_detectDataHole {cb : IntcpTransCB F nameLen} (h : Authentic content name cb)
    (s e : UInt32) : Authentic content name (detectDataHole P cb s e).2 := by
  simp only [detectDataHole]
  split
  · exact h
  · split
    · exact h
    · split
      · exact h
      · split
        · have hhole : Authentic content name (insertDataHole P cb cb.dataNextRangeStart s) := h
          exact authentic_header hhole cb.dataNextRangeStart s
        · exact h

lemma authentic_moved {cb : IntcpTransCB F nameLen} (h : Authentic content name cb) {seg : IntcpSeg}
    (genuine : Genuine content seg) :
    Authentic content name (moveToRcvQueue { cb with rcvBuf := cb.rcvBuf ++ [seg] }) := by
  refine ⟨h.sameName, h.wellFormed, h.free, h.cached, h.pending, nofun, ?_, h.queued, h.asked⟩
  intro x hx
  simp only [moveToRcvQueue, List.mem_append, List.mem_singleton] at hx
  rcases hx with hx | hx | rfl
  · exact h.arrived x hx
  · exact h.buffered x hx
  · exact genuine

lemma authentic_parseData {cb : IntcpTransCB F nameLen} (h : Authentic content name cb)
    (seg : IntcpSeg) (push : seg.cmd = intcpCmdPush) (header : Bool)
    (empty : header = true → seg.len = 0) (full : header = false → Genuine content seg) :
    Authentic content name (parseData cb seg header) := by
  have hqueued : Authentic content name (if cb.nodeRole ≠ .requester then enqueue cb seg else cb) := by
    split
    · rw [enqueue_eq]
      refine authentic_enqueueAll h ?_
      intro x hx
      rw [List.mem_singleton.mp hx]
      cases header with
      | true => exact ⟨push, .inl (empty rfl)⟩
      | false => exact ⟨push, .inr (full rfl)⟩
    · exact h
  simp only [parseData]
  cases header with
  | true => exact hqueued
  | false => exact authentic_moved hqueued (full rfl)

lemma authentic_measureHop {cb : IntcpTransCB F nameLen} (h : Authentic content name cb)
    (current : UInt32) (s : IntcpSeg) : Authentic content name (measureHop P cb current s) := by
  apply measureHop_rule (Authentic content name) _ _ _ h
  · intro cb h
    exact h
  · intro cb cc rest h
    exact h
  · intro cb h _
    exact authentic_outputInt h 0 0

/-- A harmless datagram leaves a node authentic, whatever its role. -/
theorem authentic_input {cb : IntcpTransCB F nameLen} (h : Authentic content name cb)
    {data : List UInt8} (harmless : HarmlessDatagram content data) :
    Authentic content name (input P cb data).2 := by
  apply input_rule (Authentic content name) (Harmless content) _ _ _ data (harmless P.raw) h
  · intro cb h
    exact h
  · intro cb s h _ _
    simp only [inputInt]
    split
    · exact h
    · apply authentic_parseInt
      exact h
  · intro cb current s h hs push
    have hdetected : Authentic content name (detect P (measureHop P cb current s) s) :=
      authentic_detectDataHole (authentic_measureHop h current s) s.rangeStart s.rangeEnd
    have hint : ¬ s.cmd = intcpCmdInt := by
      rw [push]
      decide
    simp only [inputPush]
    split
    · rename_i hlen
      exact authentic_parseData hdetected (rebuilt P s) push true (fun _ => hlen) (absurd · (by decide))
    · rename_i hlen
      split
      · exact hdetected
      · have genuine : Genuine content (rebuilt P s) :=
          ((hs.resolve_left hint).resolve_left hlen).of_same rfl rfl rfl rfl rfl
        exact authentic_parseData hdetected (rebuilt P s) push false (absurd · (by decide)) fun _ => genuine

lemma authentic_updateIntBuf {cb : IntcpTransCB F nameLen} (h : Authentic content name cb)
    (s e : UInt32) : Authentic content name (updateIntBuf P cb s e) := by
  obtain ⟨n, hn⟩ := splitInts_reads (P := P) s e cb cb.intBuf
  rw [updateIntBuf, hn]
  exact h

lemma authentic_flushIntQueue {cb cb' : IntcpTransCB F nameLen} (h : Authentic content name cb)
    (hqueue : flushIntQueue P cb = some cb') : Authentic content name cb' := by
  refine loop_invariant (Authentic content name) (Authentic content name) ?_ ?_ h hqueue
  · intro s t hs hpass
    rw [queuePass] at hpass
    split at hpass <;> cases hpass
    exact hs
  · intro s t hs hpass
    rw [queuePass] at hpass
    split at hpass <;> cases hpass
    exact hs

lemma authentic_chargeLimit {cb : IntcpTransCB F nameLen} (h : Authentic content name cb)
    (size : UInt32) : Authentic content name (chargeLimit cb size) := by
  rw [chargeLimit]
  split
  · exact h
  · exact h

lemma authentic_sendInt {cb : IntcpTransCB F nameLen} (h : Authentic content name cb)
    (seg : IntcpSeg) : Authentic content name (sendInt P cb seg) := by
  apply authentic_outputInt
  exact h

lemma authentic_sendInts {cb : IntcpTransCB F nameLen} (h : Authentic content name cb)
    (newOutput : Int32) : Authentic content name (sendInts P cb newOutput) := by
  have hticked : ∀ cb : IntcpTransCB F nameLen, Authentic content name cb →
      Authentic content name (tick cb) := fun _ h => h
  have hsent : Authentic content name (flushInts P ⟨cb, [], 0, false⟩ cb.intBuf).cb := by
    apply flushInts_rule (fun fl _ => Authentic content name fl.cb) _ _ _ _ _ h
    · intro fl seg rest h
      exact h
    · intro fl seg rest h _
      exact h
    · intro fl seg rest size h _
      exact authentic_chargeLimit (hticked _ h) size
    · intro fl seg rest n h _
      have hgone : Authentic content name (sendInt P (tick fl.cb) seg) :=
        authentic_sendInt (hticked _ h) seg
      exact hgone
    · intro fl seg rest n size ts h _
      exact authentic_sendInt (authentic_chargeLimit (hticked _ h) size) seg
  simp only [sendInts]
  split
  · exact hsent
  · exact hsent

lemma authentic_flushIntBuf {cb : IntcpTransCB F nameLen} (h : Authentic content name cb) :
    Authentic content name (flushIntBuf P cb) := by
  rw [flushIntBuf]
  split
  · exact h
  · apply authentic_sendInts
    exact h

lemma authentic_flushDataHoles {cb : IntcpTransCB F nameLen} (h : Authentic content name cb) :
    Authentic content name (flushDataHoles P cb) := by
  have hticked : Authentic content name (tick cb) := h
  have hflushed :
      Authentic content name (flushHoles P (getMillisec P cb) (tick cb) cb.dataHoles).1 := by
    apply flushHoles_rule (Authentic content name) _ _ _ _ _ hticked
    · intro cb b h
      exact h
    · intro cb hole _ h
      exact authentic_parseInt h _ _
    · intro cb hole _ h _
      exact authentic_updateIntBuf h _ _
  exact hflushed

lemma authentic_flush {cb cb' : IntcpTransCB F nameLen} (h : Authentic content name cb)
    (hflush : flush P cb = some cb') : Authentic content name cb' := by
  apply flush_rule (Authentic content name) _ _ _ _ _ _ h hflush
  · intro cb h
    exact h
  · intro cb cb' h _ hqueue
    exact authentic_flushIntQueue h hqueue
  · intro cb h
    exact authentic_flushIntBuf h
  · intro cb h _
    exact authentic_flushDataHoles h
  · intro cb h _
    obtain ⟨_, _, _, _, _, _, hframe⟩ := flushData_frame (P := P) cb
    rw [hframe]
    exact h
  · intro cb ts h
    exact h

lemma authentic_update {cb cb' : IntcpTransCB F nameLen} (h : Authentic content name cb)
    (hupdate : update P cb = some cb') : Authentic content name cb' := by
  apply update_rule (Authentic content name) _ _ _ _ h hupdate
  · intro cb h
    exact h
  · intro cb now h
    exact ⟨h.sameName, h.wellFormed, h.free, h.cached, h.pending, nofun, h.arrived, h.queued, h.asked⟩
  · intro cb updated next h
    exact h
  · intro cb cb' h hflush
    exact authentic_flush h hflush

lemma exists_forwarded {role : Role} {gots segs : List IntcpSeg}
    (order : List.Forall₂ (Forwarded role) gots segs) {got : IntcpSeg} (h : got ∈ gots) :
    ∃ seg ∈ segs, Forwarded role got seg := by
  induction order with
  | nil => cases h
  | cons forwarded _ ih =>
    rcases List.mem_cons.mp h with rfl | h
    · exact ⟨_, List.mem_cons_self, forwarded⟩
    · obtain ⟨seg, hseg, hforwarded⟩ := ih h
      exact ⟨seg, List.mem_cons_of_mem _ hseg, hforwarded⟩

/-- Genuine segments are as short as an honest sender makes them. -/
lemma Holding.short {cb : IntcpTransCB F nameLen} (h : Authentic content name cb) :
    ∀ seg ∈ cb.history.queued, seg.len ≤ intcpMss := by
  intro seg hseg
  rcases (h.queued seg hseg).2 with hzero | genuine
  · rw [hzero]
    decide
  · exact genuine.chunk.size

/-- What waits to be sent is a header or genuine. -/
theorem authentic_waits {role : Role} {cb : IntcpTransCB F nameLen} (h : Authentic content name cb)
    (order : InOrder role cb) : ∀ seg ∈ cb.sndQueue, Harmless content seg := by
  obtain ⟨_, packed⟩ := order.packed h.short
  obtain ⟨departed, hqueued, _⟩ := packed.order
  intro seg hseg
  exact .inr (h.queued seg (hqueued ▸ List.mem_append_right _ hseg)).2

/-- Everything that a node with an authentic state has sent is harmless. -/
theorem authentic_sends {role : Role} {cb : IntcpTransCB F nameLen} (h : Authentic content name cb)
    (order : InOrder role cb) :
    ∀ data ∈ cb.history.toRequester ++ cb.history.toResponder, HarmlessDatagram content data := by
  obtain ⟨groups, packed⟩ := order.packed h.short
  obtain ⟨departed, hqueued, horder⟩ := packed.order
  rw [List.append_nil] at horder
  intro data hdata raw s hs
  rcases List.mem_append.mp hdata with hdata | hdata
  · rw [packed.datagrams] at hdata
    obtain ⟨group, hgroup, rfl⟩ := List.mem_map.mp hdata
    have hflat : ∀ got ∈ group, got ∈ groups.flatten :=
      fun got hgot => List.mem_flatten.mpr ⟨group, hgroup, hgot⟩
    have hsendable : ∀ got ∈ group, Sendable got :=
      fun got hgot => (packed.sendable got (List.mem_append_left _ (hflat got hgot))).1
    rw [decode_frames raw hsendable] at hs
    obtain ⟨got, hgot, rfl⟩ := List.mem_map.mp hs
    -- the segment that was queued for it
    obtain ⟨seg, hseg, forwarded⟩ := exists_forwarded horder (hflat got hgot)
    rcases (h.queued seg (hqueued ▸ List.mem_append_left _ hseg)).2 with hzero | genuine
    · exact .inr (.inl (forwarded.len.trans hzero))
    · exact .inr (.inr (genuine.of_same forwarded.cmd forwarded.len forwarded.rangeStart
        forwarded.rangeEnd forwarded.data))
  · exact h.asked data hdata raw s hs

end GenuineBytes
