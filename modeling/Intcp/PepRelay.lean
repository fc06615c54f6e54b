import Intcp.StepRuns

/-!
# The proxy that breaks a TCP connection

Two sockets and a buffer for each direction: a round of the poller hands a connection that is
ready to a worker, which moves what both sockets allow. The buffer does not go round: it is
filled up to its end, and starts anew once it is empty.
-/

namespace PepRelay

open StepRuns

/-- `r_pos` and `w_pos` are offsets into `space`. -/
structure PepBuffer where
  space : Nat → UInt8
  rPos : Nat
  wPos : Nat
  rbytes : Nat
  spaceLeft : Nat
  totalSize : Nat

/-- `PEPBUF_PAGES` is 2, the size of a page is the system's. -/
def pepbufInit (pageSize : Nat) : PepBuffer where
  space := fun _ => 0
  rPos := 0
  wPos := 0
  rbytes := 0
  spaceLeft := 2 * pageSize
  totalSize := 2 * pageSize

def pepbufDeinit : PepBuffer := ⟨fun _ => 0, 0, 0, 0, 0, 0⟩

/-- `none`: the assertion fails. -/
def pepbufUpdateRpos (pbuf : PepBuffer) (rb : Nat) : Option PepBuffer :=
  if rb ≤ pbuf.spaceLeft then
    some { pbuf with
      rPos := pbuf.rPos + rb
      rbytes := pbuf.rbytes + rb
      spaceLeft := pbuf.spaceLeft - rb }
  else none

def pepbufUpdateWpos (pbuf : PepBuffer) (wb : Nat) : Option PepBuffer :=
  if pbuf.wPos + wb ≤ pbuf.totalSize then
    if pbuf.wPos + wb = pbuf.rPos then
      some { pbuf with
        wPos := 0
        rPos := 0
        rbytes := pbuf.rbytes - wb
        spaceLeft := pbuf.totalSize }
    else some { pbuf with wPos := pbuf.wPos + wb, rbytes := pbuf.rbytes - wb }
  else none

/-- What `write` is given. -/
def contents (pbuf : PepBuffer) : List UInt8 :=
  (List.range pbuf.rbytes).map fun i => pbuf.space (pbuf.wPos + i)

/-- What `read` does to the memory. -/
def fill (pbuf : PepBuffer) (bytes : List UInt8) : PepBuffer :=
  { pbuf with space := fun i =>
      if i < pbuf.rPos then pbuf.space i else (bytes[i - pbuf.rPos]?).getD (pbuf.space i) }

/-- What a socket has for `read`; no bytes are the end of the stream. -/
inductive Reading where
  | arrived (bytes : List UInt8)
  | again
  | failed

/-- What a socket says to `write`. -/
inductive Writing where
  | room (bytes : Nat)
  | again
  | failed

/-- The flags of `poll_events` that are ever changed, those of `iostat`, and as a history what was
read from the socket and what of it was written to the other one. -/
structure PepEndpoint where
  buf : PepBuffer
  pollIn : Bool
  pollOut : Bool
  iordone : Bool
  iowdone : Bool
  ioeof : Bool
  ioerr : Bool
  received : List UInt8
  sent : List UInt8

/-- The endpoint of `alloc_proxy`. -/
def allocEndpoint : PepEndpoint where
  buf := pepbufDeinit
  pollIn := true
  pollOut := false
  iordone := false
  iowdone := false
  ioeof := false
  ioerr := false
  received := []
  sent := []

def pepReceive (endp : PepEndpoint) (reading : Reading) : Option (Int × PepEndpoint) :=
  if endp.iordone ∨ endp.ioerr ∨ endp.ioeof ∨ endp.buf.spaceLeft = 0 then some (0, endp)
  else match reading with
    | .again => some (0, { endp with iordone := true })
    | .failed => some (-1, { endp with ioerr := true })
    | .arrived bytes =>
      let got := bytes.take endp.buf.spaceLeft
      if got = [] then some (0, { endp with ioeof := true })
      else (pepbufUpdateRpos (fill endp.buf got) got.length).map fun buf =>
        (got.length, { endp with buf := buf, received := endp.received ++ got })

/-- From the endpoint's buffer to the other socket. -/
def pepSend (endp : PepEndpoint) (writing : Writing) : Option (Int × PepEndpoint) :=
  if endp.ioerr ∨ endp.iowdone ∨ (endp.buf.rbytes = 0 ∧ ¬ endp.ioeof) then some (0, endp)
  else match writing with
    | .again => some (0, { endp with iowdone := true })
    | .failed => some (-1, { endp with ioerr := true })
    | .room bytes =>
      let wb := min bytes endp.buf.rbytes
      (pepbufUpdateWpos endp.buf wb).map fun buf =>
        (wb, { endp with buf := buf, sent := endp.sent ++ (contents endp.buf).take wb })

/-- The loop of `pep_proxy_data`. Where the answers end, the sockets have nothing more for it. -/
def moveData (endp : PepEndpoint) : List (Reading × Writing) → Option PepEndpoint
  | [] => (pepReceive endp .again).bind fun got => (pepSend got.2 .again).map Prod.snd
  | (reading, writing) :: rest =>
    (pepReceive endp reading).bind fun got =>
      (pepSend got.2 writing).bind fun put =>
        if put.1 > 0 ∨ got.1 > 0 then moveData put.2 rest else some put.2

/-- What a direction waits for, at its two ends. -/
def pollFor (endp target : PepEndpoint) : PepEndpoint × PepEndpoint :=
  if endp.ioerr then (endp, target)
  else
    ({ endp with pollIn :=
        if endp.buf.spaceLeft = 0 ∨ endp.ioeof then false
        else if endp.iordone then true
        else endp.pollIn },
      { target with pollOut := decide (endp.buf.rbytes ≠ 0) })

def pepProxyData (answers : List (Reading × Writing)) (endp target : PepEndpoint) :
    Option (PepEndpoint × PepEndpoint) :=
  (moveData endp answers).map fun endp => pollFor endp target

/-- `PST_PENDING` and `PST_INVAL` end before the poller sees a connection. -/
inductive ProxyStatus where
  | closed
  | opened
  | connect

structure PepProxy where
  status : ProxyStatus
  src : PepEndpoint
  dst : PepEndpoint

/-- What `poll` tells of a connection: it was refused (`SO_ERROR`), it is gone, or it is ready. -/
inductive Polled where
  | refused
  | hangup
  | ready (there back : List (Reading × Writing))

def destroyProxy (proxy : PepProxy) : PepProxy where
  status := .closed
  src := { proxy.src with buf := pepbufDeinit }
  dst := { proxy.dst with buf := pepbufDeinit }

def openProxy (pageSize : Nat) (proxy : PepProxy) : PepProxy where
  status := .opened
  src := { proxy.src with buf := pepbufInit pageSize }
  dst := { proxy.dst with buf := pepbufInit pageSize }

/-- What a worker of `workers_loop` does with a connection. -/
def work (there back : List (Reading × Writing)) (proxy : PepProxy) : Option PepProxy :=
  (pepProxyData there proxy.src proxy.dst).bind fun sent =>
    (pepProxyData back sent.2 sent.1).map fun answered =>
      { proxy with src := answered.2, dst := answered.1 }

def spent (endp : PepEndpoint) : Bool :=
  endp.ioerr || (endp.ioeof && endp.buf.rbytes == 0)

def renew (endp : PepEndpoint) : PepEndpoint :=
  { endp with iowdone := false, iordone := false, ioeof := false }

/-- The end of a round of `poller_loop`. -/
def finish (proxy : PepProxy) : PepProxy :=
  if spent proxy.src then destroyProxy proxy
  else if spent proxy.dst then destroyProxy { proxy with src := renew proxy.src }
  else { proxy with src := renew proxy.src, dst := renew proxy.dst }

def serve (polled : Polled) (proxy : PepProxy) : Option PepProxy :=
  match polled with
  | .refused => some proxy
  | .hangup => some (destroyProxy proxy)
  | .ready there back => (work there back proxy).map finish

/-- A round of `poller_loop`, for one connection. -/
def step (pageSize : Nat) (polled : Polled) (proxy : PepProxy) : Option PepProxy :=
  match proxy.status with
  | .closed => some proxy
  | .opened => serve polled proxy
  | .connect =>
    match polled with
    | .refused => some (destroyProxy proxy)
    | polled => serve polled (openProxy pageSize proxy)

/-- A connection that the listener has just accepted. -/
def connecting : PepProxy := ⟨.connect, allocEndpoint, allocEndpoint⟩

lemma length_contents (pbuf : PepBuffer) : (contents pbuf).length = pbuf.rbytes := by
  rw [contents, List.length_map, List.length_range]

lemma contents_read {pbuf buf : PepBuffer} {bytes : List UInt8}
    (layout : pbuf.rPos = pbuf.wPos + pbuf.rbytes)
    (h : pepbufUpdateRpos (fill pbuf bytes) bytes.length = some buf) :
    contents buf = contents pbuf ++ bytes := by
  rw [pepbufUpdateRpos] at h
  split at h
  · cases h
    refine List.ext_getElem (by simp [contents, fill]) fun i hi hj => ?_
    simp only [contents, fill, List.getElem_map, List.getElem_range, List.getElem_append,
      List.length_map, List.length_range, layout]
    by_cases old : i < pbuf.rbytes
    · rw [dif_pos old, if_pos (by omega)]
    · have hlt : i - pbuf.rbytes < bytes.length := by
        simp only [List.length_append, length_contents] at hj
        omega
      have hplace : pbuf.wPos + i - (pbuf.wPos + pbuf.rbytes) = i - pbuf.rbytes := by omega
      rw [dif_neg old, if_neg (by omega), hplace, List.getElem?_eq_getElem hlt, Option.getD_some]
  · cases h

lemma contents_written {pbuf buf : PepBuffer} {wb : Nat}
    (layout : pbuf.rPos = pbuf.wPos + pbuf.rbytes)
    (h : pepbufUpdateWpos pbuf wb = some buf) : contents buf = (contents pbuf).drop wb := by
  rw [pepbufUpdateWpos] at h
  split at h
  · split at h
    · cases h
      have hall : wb = pbuf.rbytes := by omega
      have hnone : pbuf.rbytes - wb = 0 := by omega
      rw [List.drop_eq_nil_of_le (by rw [length_contents]; omega), contents, hnone]
      rfl
    · cases h
      refine List.ext_getElem (by simp [contents]) fun i hi hj => ?_
      simp only [contents, List.getElem_map, List.getElem_range, List.getElem_drop]
      rw [Nat.add_assoc]
  · cases h

variable {pageSize : Nat} {endp target : PepEndpoint}

/-- What was read from an endpoint has been written to the other one or lies in its buffer. -/
structure Holds (pageSize : Nat) (endp : PepEndpoint) : Prop where
  layout : endp.buf.rPos = endp.buf.wPos + endp.buf.rbytes
  room : endp.buf.rPos + endp.buf.spaceLeft = endp.buf.totalSize
  size : endp.buf.totalSize = 2 * pageSize
  anew : endp.buf.rbytes = 0 → endp.buf.rPos = 0
  bytes : endp.received = endp.sent ++ contents endp.buf

/-- There is a reason why no more is read. -/
def Settled (endp : PepEndpoint) : Prop :=
  endp.iordone ∨ endp.ioerr ∨ endp.ioeof ∨ endp.buf.spaceLeft = 0

/-- The poll events are the poller's and are not touched while data is moved. -/
def SameEvents (endp moved : PepEndpoint) : Prop :=
  moved.pollIn = endp.pollIn ∧ moved.pollOut = endp.pollOut

lemma receive_spec (h : Holds pageSize endp) (reading : Reading) :
    ∃ rb moved, pepReceive endp reading = some (rb, moved) ∧ Holds pageSize moved ∧
      SameEvents endp moved ∧ (rb ≤ 0 → Settled moved) ∧ (reading = .again → rb ≤ 0) := by
  by_cases settled : Settled endp
  · exact ⟨0, endp, if_pos settled, h, ⟨rfl, rfl⟩, fun _ => settled, fun _ => Int.le_refl 0⟩
  · have hopen : pepReceive endp reading = _ := if_neg settled
    cases reading with
    | again =>
      exact ⟨_, _, hopen, ⟨h.layout, h.room, h.size, h.anew, h.bytes⟩, ⟨rfl, rfl⟩,
        fun _ => .inl rfl, fun _ => Int.le_refl 0⟩
    | failed =>
      exact ⟨_, _, hopen, ⟨h.layout, h.room, h.size, h.anew, h.bytes⟩, ⟨rfl, rfl⟩,
        fun _ => .inr (.inl rfl), nofun⟩
    | arrived bytes =>
      simp only at hopen
      by_cases full : bytes.take endp.buf.spaceLeft = []
      · rw [if_pos full] at hopen
        exact ⟨_, _, hopen, ⟨h.layout, h.room, h.size, h.anew, h.bytes⟩, ⟨rfl, rfl⟩,
          fun _ => .inr (.inr (.inl rfl)), nofun⟩
      · rw [if_neg full] at hopen
        generalize hgot : bytes.take endp.buf.spaceLeft = got at hopen full
        have hsome : 0 < got.length := List.length_pos_iff.mpr full
        have hfits : got.length ≤ endp.buf.spaceLeft := by
          rw [← hgot]
          exact List.length_take_le _ _
        have hupdate : pepbufUpdateRpos (fill endp.buf got) got.length = some _ := if_pos hfits
        have hcontents := contents_read h.layout hupdate
        rw [hupdate, Option.map_some] at hopen
        refine ⟨_, _, hopen, ⟨?_, ?_, h.size, ?_, ?_⟩, ⟨rfl, rfl⟩, ?_, nofun⟩
        · have := h.layout
          simp only [fill]
          omega
        · have := h.room
          simp only [fill]
          omega
        · intro empty
          simp only [fill] at empty
          omega
        · simp only [hcontents]
          rw [h.bytes, List.append_assoc]
        · intro hrb
          omega

lemma send_spec (h : Holds pageSize endp) (writing : Writing) :
    ∃ wb moved, pepSend endp writing = some (wb, moved) ∧ Holds pageSize moved ∧
      SameEvents endp moved ∧ (wb ≤ 0 → Settled endp → Settled moved) := by
  by_cases idle : endp.ioerr ∨ endp.iowdone ∨ (endp.buf.rbytes = 0 ∧ ¬ endp.ioeof)
  · exact ⟨0, endp, if_pos idle, h, ⟨rfl, rfl⟩, fun _ settled => settled⟩
  · have hopen : pepSend endp writing = _ := if_neg idle
    cases writing with
    | again =>
      exact ⟨_, _, hopen, ⟨h.layout, h.room, h.size, h.anew, h.bytes⟩, ⟨rfl, rfl⟩,
        fun _ settled => settled⟩
    | failed =>
      exact ⟨_, _, hopen, ⟨h.layout, h.room, h.size, h.anew, h.bytes⟩, ⟨rfl, rfl⟩,
        fun _ _ => .inr (.inl rfl)⟩
    | room bytes =>
      simp only at hopen
      generalize hwb : min bytes endp.buf.rbytes = wb at hopen
      have hfew : wb ≤ endp.buf.rbytes := by omega
      have hinside : endp.buf.wPos + wb ≤ endp.buf.totalSize := by
        have := h.layout
        have := h.room
        omega
      have hbytes {buf : PepBuffer} (hupdate : pepbufUpdateWpos endp.buf wb = some buf) :
          endp.received = endp.sent ++ (contents endp.buf).take wb ++ contents buf := by
        rw [contents_written h.layout hupdate, List.append_assoc, List.take_append_drop]
        exact h.bytes
      by_cases all : endp.buf.wPos + wb = endp.buf.rPos
      · have hupdate : pepbufUpdateWpos endp.buf wb = some _ := (if_pos hinside).trans (if_pos all)
        have hcontents := hbytes hupdate
        rw [hupdate, Option.map_some] at hopen
        have hnone : endp.buf.rbytes - wb = 0 := by
          have := h.layout
          omega
        refine ⟨_, _, hopen, ⟨hnone.symm ▸ rfl, Nat.zero_add _, h.size, fun _ => rfl, hcontents⟩,
          ⟨rfl, rfl⟩, fun hwb settled => ?_⟩
        -- nothing was there to be written
        have hempty : endp.buf.rPos = 0 := h.anew (by omega)
        have hspace : endp.buf.totalSize = endp.buf.spaceLeft := by
          have := h.room
          omega
        exact settled.imp_right (.imp_right (.imp_right hspace.trans))
      · have hupdate : pepbufUpdateWpos endp.buf wb = some _ := (if_pos hinside).trans (if_neg all)
        have hcontents := hbytes hupdate
        rw [hupdate, Option.map_some] at hopen
        refine ⟨_, _, hopen, ⟨?_, h.room, h.size, ?_, hcontents⟩, ⟨rfl, rfl⟩,
          fun _ settled => settled⟩
        · have := h.layout
          simp only
          omega
        · intro empty
          have := h.layout
          simp only at empty
          omega

lemma SameEvents.trans {first second third : PepEndpoint} (h : SameEvents first second)
    (h' : SameEvents second third) : SameEvents first third :=
  ⟨h'.1.trans h.1, h'.2.trans h.2⟩

/-- The loop of `pep_proxy_data` ends for a reason, and no assertion fails in it. -/
lemma moveData_spec (answers : List (Reading × Writing)) (h : Holds pageSize endp) :
    ∃ moved, moveData endp answers = some moved ∧ Holds pageSize moved ∧
      SameEvents endp moved ∧ Settled moved := by
  induction answers generalizing endp with
  | nil =>
    obtain ⟨rb, got, hgot, hold, same, settled, quiet⟩ := receive_spec h .again
    obtain ⟨wb, put, hput, hold', same', kept⟩ := send_spec hold .again
    have hwb : wb ≤ 0 := by
      rw [pepSend] at hput
      split at hput <;> cases hput <;> exact Int.le_refl 0
    refine ⟨put, ?_, hold', same.trans same', kept hwb (settled (quiet rfl))⟩
    rw [moveData, hgot, Option.bind_some, hput, Option.map_some]
  | cons answer rest ih =>
    obtain ⟨rb, got, hgot, hold, same, settled, -⟩ := receive_spec h answer.1
    obtain ⟨wb, put, hput, hold', same', kept⟩ := send_spec hold answer.2
    have hpass : moveData endp (answer :: rest) =
        if wb > 0 ∨ rb > 0 then moveData put rest else some put := by
      rw [moveData, hgot, Option.bind_some, hput, Option.bind_some]
    by_cases more : wb > 0 ∨ rb > 0
    · obtain ⟨moved, hmoved, hold'', same'', done⟩ := ih hold'
      exact ⟨moved, hpass.trans ((if_pos more).trans hmoved), hold'',
        (same.trans same').trans same'', done⟩
    · have hrb : rb ≤ 0 := by omega
      have hwb : wb ≤ 0 := by omega
      exact ⟨put, hpass.trans (if_neg more), hold', same.trans same', kept hwb (settled hrb)⟩

/-- An empty direction waits for bytes to come, another one for room where they go. -/
structure Armed (endp target : PepEndpoint) : Prop where
  reads : endp.pollIn = true ∨ endp.buf.rbytes ≠ 0
  writes : endp.buf.rbytes ≠ 0 → target.pollOut = true

lemma pollFor_spec (endp target : PepEndpoint) : ∃ pollIn pollOut,
    pollFor endp target = ({ endp with pollIn := pollIn }, { target with pollOut := pollOut }) ∧
      (endp.ioerr = false → pollOut = decide (endp.buf.rbytes ≠ 0) ∧ pollIn =
        if endp.buf.spaceLeft = 0 ∨ endp.ioeof then false
        else if endp.iordone then true else endp.pollIn) := by
  rw [pollFor]
  split
  · rename_i failed
    exact ⟨endp.pollIn, target.pollOut, rfl, fun sound => absurd failed (by simp [sound])⟩
  · exact ⟨_, _, rfl, fun _ => ⟨rfl, rfl⟩⟩

/-- While a direction is not spent, it will be woken up. -/
lemma waits_of_settled (hpage : 0 < pageSize) (h : Holds pageSize endp) (settled : Settled endp)
    (live : spent endp = false) :
    (if endp.buf.spaceLeft = 0 ∨ endp.ioeof then false
      else if endp.iordone then true else endp.pollIn) = true ∨ endp.buf.rbytes ≠ 0 := by
  by_cases empty : endp.buf.rbytes = 0
  · have sound : endp.ioerr = false ∧ endp.ioeof = false := by
      simpa [spent, empty] using live
    have space : endp.buf.spaceLeft ≠ 0 := by
      have := h.room
      have := h.size
      have := h.anew empty
      omega
    have done : endp.iordone = true := by
      simpa [Settled, sound.1, sound.2, space] using settled
    simp [sound.2, space, done]
  · exact .inr empty

lemma work_spec (hpage : 0 < pageSize) (there back : List (Reading × Writing)) {proxy : PepProxy}
    (hsrc : Holds pageSize proxy.src) (hdst : Holds pageSize proxy.dst) :
    ∃ worked, work there back proxy = some worked ∧ worked.status = proxy.status ∧
      Holds pageSize worked.src ∧ Holds pageSize worked.dst ∧
      (spent worked.src = false → spent worked.dst = false →
        Armed worked.src worked.dst ∧ Armed worked.dst worked.src) := by
  obtain ⟨src, hmoved, hold, same, settled⟩ := moveData_spec there hsrc
  obtain ⟨srcIn, dstOut, hpoll, hevents⟩ := pollFor_spec src proxy.dst
  have hdst' : Holds pageSize { proxy.dst with pollOut := dstOut } :=
    ⟨hdst.layout, hdst.room, hdst.size, hdst.anew, hdst.bytes⟩
  obtain ⟨dst, hmoved', hold', same', settled'⟩ := moveData_spec back hdst'
  obtain ⟨dstIn, srcOut, hpoll', hevents'⟩ := pollFor_spec dst { src with pollIn := srcIn }
  refine ⟨⟨proxy.status, { src with pollIn := srcIn, pollOut := srcOut },
    { dst with pollIn := dstIn }⟩, ?_, rfl, ⟨hold.layout, hold.room, hold.size, hold.anew, hold.bytes⟩,
    ⟨hold'.layout, hold'.room, hold'.size, hold'.anew, hold'.bytes⟩, ?_⟩
  · rw [work, pepProxyData, hmoved, Option.map_some, Option.bind_some, hpoll, pepProxyData, hmoved',
      Option.map_some, Option.map_some, hpoll']
  · intro live live'
    obtain ⟨hsrcOut, hdstIn⟩ := hevents' (Bool.or_eq_false_iff.mp live').1
    obtain ⟨hdstOut, hsrcIn⟩ := hevents (Bool.or_eq_false_iff.mp live).1
    have hout : dst.pollOut = dstOut := same'.2
    refine ⟨⟨?_, ?_⟩, ⟨?_, ?_⟩⟩
    · rw [hsrcIn]
      exact waits_of_settled hpage hold settled live
    · intro waiting
      exact (hout.trans hdstOut).trans (decide_eq_true waiting)
    · rw [hdstIn]
      exact waits_of_settled hpage hold' settled' live'
    · intro waiting
      exact hsrcOut.trans (decide_eq_true waiting)

/-- The stream from an endpoint has failed, or all of it has been passed on. -/
def Finished (endp : PepEndpoint) : Prop :=
  endp.ioerr = true ∨ (endp.ioeof = true ∧ endp.sent = endp.received)

/-- What becomes of a connection; `gone` where the network has given it up. -/
inductive Relays (pageSize : Nat) (gone : Prop) : PepProxy → Prop where
  | connecting : Relays pageSize gone connecting
  | opened {src dst} (src_holds : Holds pageSize src) (dst_holds : Holds pageSize dst)
      (there : Armed src dst) (back : Armed dst src) : Relays pageSize gone ⟨.opened, src, dst⟩
  | closed {src dst} (there : src.sent <+: src.received) (back : dst.sent <+: dst.received)
      (why : gone ∨ Finished src ∨ Finished dst) : Relays pageSize gone ⟨.closed, src, dst⟩

lemma Holds.passes (h : Holds pageSize endp) : endp.sent <+: endp.received :=
  ⟨_, h.bytes.symm⟩

lemma Holds.finished (h : Holds pageSize endp) (hspent : spent endp = true) : Finished endp := by
  rcases Bool.or_eq_true_iff.mp hspent with failed | ended
  · exact .inl failed
  · obtain ⟨eof, empty⟩ := Bool.and_eq_true_iff.mp ended
    have drained : contents endp.buf = [] := by
      rw [← List.length_eq_zero_iff, length_contents]
      exact beq_iff_eq.mp empty
    have hbytes := h.bytes
    rw [drained, List.append_nil] at hbytes
    exact .inr ⟨eof, hbytes.symm⟩

variable {gone : Prop}

lemma relays_finish {proxy : PepProxy} (opened : proxy.status = .opened)
    (hsrc : Holds pageSize proxy.src) (hdst : Holds pageSize proxy.dst)
    (armed : spent proxy.src = false → spent proxy.dst = false →
      Armed proxy.src proxy.dst ∧ Armed proxy.dst proxy.src) :
    Relays pageSize gone (finish proxy) := by
  obtain ⟨status, src, dst⟩ := proxy
  cases opened
  rw [finish]
  split
  · rename_i hspent
    exact .closed hsrc.passes hdst.passes (.inr (.inl (hsrc.finished hspent)))
  · rename_i live
    split
    · rename_i hspent
      exact .closed hsrc.passes hdst.passes (.inr (.inr (hdst.finished hspent)))
    · rename_i live'
      obtain ⟨there, back⟩ := armed (Bool.eq_false_iff.mpr live) (Bool.eq_false_iff.mpr live')
      exact .opened ⟨hsrc.layout, hsrc.room, hsrc.size, hsrc.anew, hsrc.bytes⟩
        ⟨hdst.layout, hdst.room, hdst.size, hdst.anew, hdst.bytes⟩
        ⟨there.reads, there.writes⟩ ⟨back.reads, back.writes⟩

/-- The network gives a connection up. -/
def Polled.Gone : Polled → Prop
  | .ready _ _ => False
  | .refused => True
  | .hangup => True

lemma relays_serve (hpage : 0 < pageSize) (polled : Polled) (lost : polled.Gone → gone)
    {proxy : PepProxy} (opened : proxy.status = .opened) (hsrc : Holds pageSize proxy.src)
    (hdst : Holds pageSize proxy.dst) (there : Armed proxy.src proxy.dst)
    (back : Armed proxy.dst proxy.src) :
    ∃ served, serve polled proxy = some served ∧ Relays pageSize gone served := by
  cases polled with
  | refused =>
    obtain ⟨status, src, dst⟩ := proxy
    cases opened
    exact ⟨_, rfl, .opened hsrc hdst there back⟩
  | hangup => exact ⟨_, rfl, .closed hsrc.passes hdst.passes (.inl (lost trivial))⟩
  | ready going coming =>
    obtain ⟨worked, hwork, hstatus, hsrc', hdst', armed⟩ := work_spec hpage going coming hsrc hdst
    refine ⟨finish worked, ?_, relays_finish (hstatus.trans opened) hsrc' hdst' armed⟩
    rw [serve, hwork, Option.map_some]

lemma holds_opened : Holds pageSize { allocEndpoint with buf := pepbufInit pageSize } :=
  ⟨rfl, Nat.zero_add _, rfl, fun _ => rfl, rfl⟩

lemma relays_step (hpage : 0 < pageSize) (polled : Polled) (lost : polled.Gone → gone)
    {proxy : PepProxy} (h : Relays pageSize gone proxy) :
    ∃ served, step pageSize polled proxy = some served ∧ Relays pageSize gone served := by
  cases h with
  | closed there back why => exact ⟨_, rfl, .closed there back why⟩
  | opened src_holds dst_holds there back =>
    exact relays_serve hpage polled lost rfl src_holds dst_holds there back
  | connecting =>
    have waiting : Armed { allocEndpoint with buf := pepbufInit pageSize }
        { allocEndpoint with buf := pepbufInit pageSize } := ⟨.inl rfl, fun nonempty => absurd rfl nonempty⟩
    have opens (polled : Polled) (lost : polled.Gone → gone) :
        ∃ served, serve polled (openProxy pageSize connecting) = some served ∧
          Relays pageSize gone served :=
      relays_serve hpage polled lost rfl holds_opened holds_opened waiting waiting
    cases polled with
    | refused =>
      exact ⟨_, rfl, .closed List.prefix_rfl List.prefix_rfl (.inl (lost trivial))⟩
    | hangup => exact opens .hangup lost
    | ready there back => exact opens (.ready there back) lost

/-- Whatever the sockets answer, in every run of the poller no assertion on the buffers fails, and
what has been written in either direction is what was read at its other end, in order and without
a gap. While the connection is open the rest lies in the buffer and the poller waits for an event
that moves it on; it is closed when the network has given it up, when a call on a socket has failed
or when a stream has ended and all of it has been passed on. -/
theorem run_relays (hpage : 0 < pageSize) (rounds : List Polled) :
    ∃ proxy, run (step pageSize) connecting rounds = some proxy ∧
      Relays pageSize (∃ polled ∈ rounds, polled.Gone) proxy :=
  run_total (Relays pageSize _) (fun _ polled h lost => relays_step hpage polled lost h) .connecting
    fun polled hpolled gone => ⟨polled, hpolled, gone⟩

/-- Five bytes come for a buffer of four, and the last one has to wait. -/
def crowded : List Polled :=
  [.ready [(.arrived [1, 2, 3, 4, 5], .room 3), (.arrived [5], .room 1), (.arrived [5], .again)] []]

theorem run_relays_crowded : ∃ proxy, run (step 2) connecting crowded = some proxy ∧
    proxy.src.received = [1, 2, 3, 4, 5] ∧ proxy.src.sent = [1, 2, 3, 4] ∧
      proxy.dst.pollOut = true ∧ Relays 2 (∃ polled ∈ crowded, polled.Gone) proxy := by
  obtain ⟨proxy, hrun, relays⟩ := run_relays (Nat.succ_pos 1) crowded
  have houtcome : (run (step 2) connecting crowded).map (fun proxy =>
      (proxy.src.received, proxy.src.sent, proxy.dst.pollOut)) =
        some ([1, 2, 3, 4, 5], [1, 2, 3, 4], true) := by
    decide +kernel
  rw [hrun, Option.map_some] at houtcome
  obtain ⟨hreceived, hrest⟩ := Prod.mk.inj (Option.some.inj houtcome)
  obtain ⟨hsent, hevents⟩ := Prod.mk.inj hrest
  exact ⟨proxy, hrun, hreceived, hsent, hevents, relays⟩

end PepRelay
