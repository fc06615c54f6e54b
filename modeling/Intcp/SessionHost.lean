import Intcp.GroundStation
import Intcp.NodeEffects
import Intcp.SharedStore

/-!
# Many sessions on one host

`udpRecvLoop` of udp_intcp.cpp: every datagram goes to the session of its quadruple,
which comes into being with its first datagram. All sessions work on one cache. The code
locks each session and each access to the cache, so that calls on different sessions can
overlap; here a call is taken as one step. The spec is `history`, in which every session
has its own past and no other session occurs.
-/

namespace SessionHost

open LittleEndian StepRuns SharedStore Words BlockCache TransControl SegmentCodec DataPlane NodeCore
  CallRules GroundStation NodeEffects

universe u
variable {F : Type u}

structure SockAddr where
  sin_addr : UInt32
  sin_port : UInt16
  deriving DecidableEq, Repr

def addrCmp (addr1 addr2 : SockAddr) : Bool :=
  addr1.sin_addr == addr2.sin_addr && addr1.sin_port == addr2.sin_port

structure Quad where
  reqAddrIP : UInt32
  reqAddrPort : UInt16
  respAddrIP : UInt32
  respAddrPort : UInt16
  deriving DecidableEq, Repr

/-- The constructor from two addresses. -/
def Quad.ofAddrs (requesterAddr responderAddr : SockAddr) : Quad where
  reqAddrIP := requesterAddr.sin_addr
  reqAddrPort := requesterAddr.sin_port
  respAddrIP := responderAddr.sin_addr
  respAddrPort := responderAddr.sin_port

def Quad.getReqAddr (quad : Quad) : SockAddr := ⟨quad.reqAddrIP, quad.reqAddrPort⟩

def Quad.getRespAddr (quad : Quad) : SockAddr := ⟨quad.respAddrIP, quad.respAddrPort⟩

abbrev Name := Vector UInt8 12

/-- `toChars` -/
def Quad.chars (quad : Quad) : Name :=
  ⟨(bytes32 quad.reqAddrIP ++ (bytes16 quad.reqAddrPort ++ (bytes32 quad.respAddrIP ++
    bytes16 quad.respAddrPort))).toArray, by simp⟩

/-- Sessions of different quadruples have different names. -/
theorem chars_injective {a b : Quad} (same : a.chars = b.chars) : a = b := by
  have hlist : ∀ q : Quad, q.chars.toList = bytes32 q.reqAddrIP ++ (bytes16 q.reqAddrPort ++
      (bytes32 q.respAddrIP ++ bytes16 q.respAddrPort)) := fun _ => rfl
  have hbytes := congrArg Vector.toList same
  rw [hlist, hlist] at hbytes
  obtain ⟨hreqIP, hbytes⟩ := List.append_inj hbytes (by simp)
  obtain ⟨hreqPort, hbytes⟩ := List.append_inj hbytes (by simp)
  obtain ⟨hrespIP, hrespPort⟩ := List.append_inj hbytes (by simp)
  have hport : ∀ {x y : UInt16}, bytes16 x = bytes16 y → x = y := fun {x y} h =>
    UInt16.toNat_inj.mp (put_injective x.toNat_lt y.toNat_lt h)
  obtain ⟨reqIP, reqPort, respIP, respPort⟩ := a
  obtain ⟨reqIP', reqPort', respIP', respPort'⟩ := b
  obtain rfl : reqIP = reqIP' := bytes32_injective hreqIP
  obtain rfl : reqPort = reqPort' := hport hreqPort
  obtain rfl : respIP = respIP' := bytes32_injective hrespIP
  obtain rfl : respPort = respPort' := hport hrespPort
  rfl

/-- Which end a datagram goes to, by the command of its first segment; -1 is `none`. -/
def judgeSegDst (data : List UInt8) : Option Role :=
  if data.length < intcpOverhead.toNat then none
  else if (decode8u data).1 = intcpCmdInt then some .responder
  else some .requester

/-- `recvmsg` cuts a datagram off at `iov_len`. -/
def recvCapacity : Nat := 1499

abbrev Hosted (F : Type u) := Host Name (IntcpTransCB F 12) (Cache 12)

/-- The sessions of a host, each with readings of the clock at times of its own. -/
def sessions (P : Name → Platform F) : Family Name (IntcpTransCB F 12) (Cache 12) (Op 12) where
  store cb := cb.cache
  withStore cache cb := withCache cb cache
  alive cb := decide (cb.state ≠ -1)
  step name op cb := op.step (P name) cb

def quadOf (sendAddr recvAddr : SockAddr) (segDstRole : Role) : Quad :=
  if segDstRole = .responder then .ofAddrs sendAddr recvAddr else .ofAddrs recvAddr sendAddr

def newRole (isEndp : Bool) : Role := if isEndp then .responder else .midnode

/-- One round of `udpRecvLoop`, with what `recvmsg` received. -/
def udpRecv (P : Name → Platform F) (listenAddr sendAddr recvAddr : SockAddr)
    (recvBuf : List UInt8) (h : Hosted F) : Option (Hosted F) :=
  let isEndp := addrCmp recvAddr listenAddr
  match judgeSegDst recvBuf with
  | none => some h
  | some segDstRole =>
    let name := (quadOf sendAddr recvAddr segDstRole).chars
    match h.nodes name with
    | some _ => act (sessions P) name (.input recvBuf) h
    | none =>
      if isEndp = true ∧ segDstRole = .requester then some h
      else
        let sess := IntcpTransCB.create (P name) (newRole isEndp) name h.store
        act (sessions P) name (.input recvBuf) (create name sess h)

inductive Event where
  | datagram (sendAddr recvAddr : SockAddr) (data : List UInt8)
  | call (name : Name) (op : Op 12)

/-- A round of the loop, or a call by a thread of a session. -/
def step (P : Name → Platform F) (listenAddr : SockAddr) (event : Event) (h : Hosted F) :
    Option (Hosted F) :=
  if h.exited then none
  else match event with
    | .datagram sendAddr recvAddr data =>
      udpRecv P listenAddr sendAddr recvAddr (data.take recvCapacity) h
    | .call name op => act (sessions P) name op h

/-- A host with the sessions that were put into the map by hand. -/
def hosted (P : Name → Platform F) (manual : Name → Option Role) (cache : Cache 12) : Hosted F where
  nodes name := (manual name).map fun role => .create (P name) role name cache
  store := cache
  exited := false

/-- The call that an event makes on the session `name`. -/
def Event.callOn (name : Name) : Event → Option (Op 12)
  | .datagram sendAddr recvAddr data =>
    match judgeSegDst (data.take recvCapacity) with
    | none => none
    | some segDstRole =>
      if (quadOf sendAddr recvAddr segDstRole).chars = name then
        some (.input (data.take recvCapacity))
      else none
  | .call other op => if other = name then some op else none

/-- The role of the session `name` that an event would bring into being. -/
def Event.opens (listenAddr : SockAddr) (name : Name) : Event → Option Role
  | .datagram sendAddr recvAddr data =>
    match judgeSegDst (data.take recvCapacity) with
    | none => none
    | some segDstRole =>
      let isEndp := addrCmp recvAddr listenAddr
      if (quadOf sendAddr recvAddr segDstRole).chars = name ∧
          ¬ (isEndp = true ∧ segDstRole = .requester) then
        some (newRole isEndp)
      else none
  | .call _ _ => none

/-- Role and calls of a session that was not put into the map by hand. -/
def opened (listenAddr : SockAddr) (name : Name) : List Event → Option (Role × List (Op 12))
  | [] => none
  | event :: rest =>
    match event.opens listenAddr name with
    | some role => some (role, (event :: rest).filterMap (Event.callOn name))
    | none => opened listenAddr name rest

def history (manual : Name → Option Role) (listenAddr : SockAddr) (name : Name)
    (events : List Event) : Option (Role × List (Op 12)) :=
  match manual name with
  | some role => some (role, events.filterMap (Event.callOn name))
  | none => opened listenAddr name events

/-- The calls of a session other than those on the cache alone: what it asks of the cache itself
cannot be told from what others ask. -/
def own : Op 12 → Bool
  | .cacheInsert _ _ _ _ => false
  | .cacheRead _ _ _ => false
  | _ => true

/-- Calls on the cache alone that turn one cache into another, at any living node. -/
def CacheWork (before after : Cache 12) : Prop :=
  ∃ calls : List (Op 12), (∀ b ∈ calls, own b = false) ∧
    ∀ (P : Platform F) (cb : IntcpTransCB F 12), cb.state ≠ -1 →
      run (Op.step P) (withCache cb before) calls = some (withCache cb after)

lemma CacheWork.snoc {before mid after : Cache 12} (work : CacheWork (F := F) before mid) (op : Op 12)
    (foreign : own op = false)
    (hop : ∀ (P : Platform F) (cb : IntcpTransCB F 12), cb.state ≠ -1 →
      op.step P (withCache cb mid) = some (withCache cb after)) :
    CacheWork (F := F) before after := by
  obtain ⟨calls, hcalls, hrun⟩ := work
  refine ⟨calls ++ [op], ?_, fun P cb living => ?_⟩
  · exact List.forall_mem_append.mpr ⟨hcalls, List.forall_mem_singleton.mpr foreign⟩
  · rw [run_snoc, hrun P cb living]
    exact hop P cb living

/-- The work of a call on the cache is that of its reads and inserts. -/
lemma effects_work {P : Platform F} {cb cb' : IntcpTransCB F 12}
    (effects : Effects P False True cb cb') : CacheWork (F := F) cb.cache cb'.cache := by
  refine effects.keep (fun now => CacheWork (F := F) cb.cache now.cache) ?_ ⟨[], nofun, fun _ _ _ => rfl⟩
  intro now next work effect
  cases effect with
  | quiet same =>
    rw [same.cache]
    exact work
  | read name s e => exact work.snoc (.cacheRead name s e) rfl fun P cb living => if_neg living
  | insert name s e dataBuf hcache =>
    refine work.snoc (.cacheInsert name s e dataBuf) rfl fun P cb living => ?_
    have hstep : Op.step P (.cacheInsert name s e dataBuf) (withCache cb now.cache) =
        Op.act P (.cacheInsert name s e dataBuf) (withCache cb now.cache) := if_neg living
    rw [hstep]
    exact Option.map_eq_some_iff.mpr ⟨_, hcache, rfl⟩
  | queue segs push => exact work
  | ask s e =>
    rw [outputInt_eq]
    exact work
  | send =>
    obtain ⟨limit, n, sn, bytes, queue, out, hframe⟩ := flushData_frame (P := P) now
    rw [hframe]
    exact work
  | timer updated next free => exact work

lemma sessions_lawful (P : Name → Platform F) : Lawful (sessions P) own where
  store_with _ _ := rfl
  with_store _ := rfl
  foreign := by
    intro p op cb cb' hstep q other living
    obtain ⟨calls, hcalls, hrun⟩ := effects_work (step_effects (P := P p) nofun (fun _ => trivial) hstep)
    exact ⟨calls, hcalls, hrun (P q) other (of_decide_eq_true living)⟩

/-- What one more event makes of the past of a session. -/
def Event.extend (listenAddr : SockAddr) (name : Name) (event : Event) :
    Option (Role × List (Op 12)) → Option (Role × List (Op 12))
  | some (role, calls) => some (role, calls ++ (event.callOn name).toList)
  | none => (event.opens listenAddr name).map fun role => (role, (event.callOn name).toList)

lemma filterMap_snoc (name : Name) (events : List Event) (event : Event) :
    (events ++ [event]).filterMap (Event.callOn name) =
      events.filterMap (Event.callOn name) ++ (event.callOn name).toList := by
  rw [List.filterMap_append]
  cases h : event.callOn name <;> simp [h]

lemma opened_snoc (listenAddr : SockAddr) (name : Name) (events : List Event) (event : Event) :
    opened listenAddr name (events ++ [event]) =
      event.extend listenAddr name (opened listenAddr name events) := by
  induction events with
  | nil =>
    rw [List.nil_append, opened, opened, Event.extend]
    cases event.opens listenAddr name with
    | none => rfl
    | some role => exact congrArg (fun calls => some (role, calls)) (filterMap_snoc name [] event)
  | cons first rest ih =>
    rw [List.cons_append, opened, opened]
    cases first.opens listenAddr name with
    | none => exact ih
    | some role =>
      exact congrArg (fun calls => some (role, calls)) (filterMap_snoc name (first :: rest) event)

lemma history_snoc (manual : Name → Option Role) (listenAddr : SockAddr) (name : Name)
    (events : List Event) (event : Event) :
    history manual listenAddr name (events ++ [event]) =
      event.extend listenAddr name (history manual listenAddr name events) := by
  rw [history, history]
  cases manual name with
  | none => exact opened_snoc listenAddr name events event
  | some role => rw [filterMap_snoc, Event.extend]

/-- The host after `events`, which `trace` reads as creations and calls. -/
structure Apart (P : Name → Platform F) (manual : Name → Option Role) (listenAddr : SockAddr)
    (cache : Cache 12) (h : Hosted F) (events : List Event)
    (trace : List (SharedStore.Event Name (IntcpTransCB F 12) (Op 12))) : Prop where
  reached : run (SharedStore.step (sessions P)) (hosted P manual cache) trace = some h
  absent : ∀ name, h.nodes name = none → history manual listenAddr name events = none
  present : ∀ name cb, h.nodes name = some cb → ∃ role,
    history manual listenAddr name events = some (role, actsOf name trace) ∧
    (manual name = some role ∨ manual name = none) ∧
    ∀ node, .create name node ∈ trace → ∃ c, node = .create (P name) role name c

variable {P : Name → Platform F} {manual : Name → Option Role} {listenAddr : SockAddr}
  {cache : Cache 12} {h h' : Hosted F} {events : List Event}
  {trace : List (SharedStore.Event Name (IntcpTransCB F 12) (Op 12))}

lemma Apart.projects (now : Apart P manual listenAddr cache h events trace) :
    Projects (sessions P) own (hosted P manual cache) h trace := by
  refine run_projects (sessions_lawful P) (fun name cb hcb => ?_) now.reached
  obtain ⟨role, _, rfl⟩ := Option.map_eq_some_iff.mp hcb
  rfl

/-- An event that calls on a session in the map. -/
lemma apart_act {event : Event} {name : Name} {op : Op 12}
    (now : Apart P manual listenAddr cache h events trace) (running : h.exited = false)
    (calls : ∀ q, event.callOn q = if name = q then some op else none)
    (opens : ∀ q, q ≠ name → event.opens listenAddr q = none)
    (hact : act (sessions P) name op h = some h') :
    Apart P manual listenAddr cache h' (events ++ [event]) (trace ++ [.act name op]) := by
  obtain ⟨cb, next, hcb, hnodes⟩ := act_nodes hact
  have hstep : SharedStore.step (sessions P) (.act name op) h = some h' := by
    rw [SharedStore.step, if_neg (by simp [running]), hact]
  refine ⟨by rw [run_snoc, now.reached]; exact hstep, ?_, ?_⟩
  · intro q hq
    rw [hnodes] at hq
    obtain ⟨hother, hq⟩ := update_eq_none hq
    rw [history_snoc, now.absent q hq, Event.extend, opens q hother]
    rfl
  · intro q cb' hq
    rw [hnodes] at hq
    have hsame : ∀ node, (.create q node ∈ trace ++ [.act name op]) → .create q node ∈ trace := by
      intro node hnode
      simpa using hnode
    rcases update_eq_some hq with ⟨rfl, _⟩ | ⟨hother, hq⟩
    · obtain ⟨role, hpast, hmanual, hcreated⟩ := now.present q cb hcb
      refine ⟨role, ?_, hmanual, fun node hnode => hcreated node (hsame node hnode)⟩
      rw [history_snoc, hpast, Event.extend, calls, if_pos rfl, actsOf_act]
      rfl
    · obtain ⟨role, hpast, hmanual, hcreated⟩ := now.present q cb' hq
      refine ⟨role, ?_, hmanual, fun node hnode => hcreated node (hsame node hnode)⟩
      rw [history_snoc, hpast, Event.extend, calls, if_neg (Ne.symm hother), actsOf_other hother]
      simp

/-- An event that reaches no session. -/
lemma apart_ignored {event : Event} (now : Apart P manual listenAddr cache h events trace)
    (opens : ∀ q, h.nodes q = none → event.opens listenAddr q = none)
    (calls : ∀ q cb, h.nodes q = some cb → event.callOn q = none) :
    Apart P manual listenAddr cache h (events ++ [event]) trace := by
  refine ⟨now.reached, ?_, ?_⟩
  · intro q hq
    rw [history_snoc, now.absent q hq, Event.extend, opens q hq]
    rfl
  · intro q cb hq
    obtain ⟨role, hpast, hrest⟩ := now.present q cb hq
    refine ⟨role, ?_, hrest⟩
    rw [history_snoc, hpast, Event.extend, calls q cb hq]
    simp

/-- An event that brings a session into being and calls on it. -/
lemma apart_open {event : Event} {name : Name} {role : Role} {op : Op 12}
    (now : Apart P manual listenAddr cache h events trace) (running : h.exited = false)
    (missing : h.nodes name = none)
    (calls : ∀ q, event.callOn q = if name = q then some op else none)
    (opens : ∀ q, event.opens listenAddr q = if name = q then some role else none)
    (hact : act (sessions P) name op
      (create name (.create (P name) role name h.store) h) = some h') :
    Apart P manual listenAddr cache h' (events ++ [event])
      (trace ++ [.create name (.create (P name) role name h.store)] ++ [.act name op]) := by
  obtain ⟨cb, next, _, hnodes⟩ := act_nodes hact
  have hmake : SharedStore.step (sessions P) (.create name (.create (P name) role name h.store)) h =
      some (create name (.create (P name) role name h.store) h) := by
    rw [SharedStore.step, if_neg]
    simp [running, missing, sessions, IntcpTransCB.create]
  have hstep : SharedStore.step (sessions P) (.act name op)
      (create name (.create (P name) role name h.store) h) = some h' := by
    have hrunning : (create name (IntcpTransCB.create (P name) role name h.store) h).exited = false :=
      running
    rw [SharedStore.step, if_neg (by simp [hrunning]), hact]
  obtain ⟨hstart, hnone, hfresh⟩ := now.projects.absent name missing
  refine ⟨?_, ?_, ?_⟩
  · rw [run_snoc, run_snoc, now.reached, Option.bind_some, hmake]
    exact hstep
  · intro q hq
    rw [hnodes] at hq
    obtain ⟨hother, hq⟩ := update_eq_none hq
    rw [history_snoc, now.absent q (update_eq_none hq).2, Event.extend, opens,
      if_neg (Ne.symm hother)]
    rfl
  · intro q cb' hq
    rw [hnodes] at hq
    rcases update_eq_some hq with ⟨rfl, _⟩ | ⟨hother, hq⟩
    · refine ⟨role, ?_, Or.inr (Option.map_eq_none_iff.mp hstart), fun node hnode => ?_⟩
      · rw [history_snoc, now.absent q missing, Event.extend, opens, if_pos rfl, calls, if_pos rfl,
          actsOf_act, actsOf_create, hnone]
        rfl
      · simp only [List.mem_append, List.mem_singleton, reduceCtorEq, or_false] at hnode
        rcases hnode with hnode | hnode
        · exact absurd hnode (hfresh node)
        · obtain ⟨_, rfl⟩ := SharedStore.Event.create.inj hnode
          exact ⟨h.store, rfl⟩
    · rcases update_eq_some hq with ⟨rfl, _⟩ | ⟨_, hq⟩
      · exact absurd rfl hother
      · obtain ⟨role', hpast, hmanual, hcreated⟩ := now.present q cb' hq
        refine ⟨role', ?_, hmanual, fun node hnode => hcreated node ?_⟩
        · rw [history_snoc, hpast, Event.extend, calls, if_neg (Ne.symm hother),
            actsOf_other hother, actsOf_create]
          simp
        · simpa [hother] using hnode

/-- A datagram of a session calls on that session alone, and opens no other. -/
lemma callOn_datagram (sendAddr recvAddr : SockAddr) (data : List UInt8) {segDstRole : Role}
    (judged : judgeSegDst (data.take recvCapacity) = some segDstRole) (q : Name) :
    (Event.datagram sendAddr recvAddr data).callOn q =
      if (quadOf sendAddr recvAddr segDstRole).chars = q then
        some (.input (data.take recvCapacity)) else none := by
  simp only [Event.callOn, judged]

lemma opens_datagram (listenAddr sendAddr recvAddr : SockAddr) (data : List UInt8) {segDstRole : Role}
    (judged : judgeSegDst (data.take recvCapacity) = some segDstRole) (q : Name) :
    (Event.datagram sendAddr recvAddr data).opens listenAddr q =
      if (quadOf sendAddr recvAddr segDstRole).chars = q ∧
          ¬ (addrCmp recvAddr listenAddr = true ∧ segDstRole = .requester) then
        some (newRole (addrCmp recvAddr listenAddr)) else none := by
  simp only [Event.opens, judged]

lemma apart_step {event : Event} (now : Apart P manual listenAddr cache h events trace)
    (hstep : step P listenAddr event h = some h') :
    ∃ trace', Apart P manual listenAddr cache h' (events ++ [event]) trace' := by
  unfold step at hstep
  split at hstep
  · cases hstep
  · rename_i hrunning
    have running : h.exited = false := Bool.eq_false_iff.mpr hrunning
    cases event with
    | call name op =>
      exact ⟨_, apart_act now running (fun _ => rfl) (fun _ _ => rfl) hstep⟩
    | datagram sendAddr recvAddr data =>
      simp only [udpRecv] at hstep
      cases hjudged : judgeSegDst (data.take recvCapacity) with
      | none =>
        simp only [hjudged] at hstep
        obtain rfl := Option.some.inj hstep
        refine ⟨trace, apart_ignored now (fun q _ => ?_) fun q _ _ => ?_⟩
        · simp only [Event.opens, hjudged]
        · simp only [Event.callOn, hjudged]
      | some segDstRole =>
        have hcalls := callOn_datagram sendAddr recvAddr data hjudged
        have hopens := opens_datagram listenAddr sendAddr recvAddr data hjudged
        simp only [hjudged] at hstep
        cases hknown : h.nodes (quadOf sendAddr recvAddr segDstRole).chars with
        | some cb =>
          simp only [hknown] at hstep
          refine ⟨_, apart_act now running hcalls (fun q hq => ?_) hstep⟩
          rw [hopens, if_neg fun h => hq h.1.symm]
        | none =>
          simp only [hknown] at hstep
          split at hstep
          · rename_i hunknown
            obtain rfl := Option.some.inj hstep
            refine ⟨trace, apart_ignored now (fun q _ => ?_) fun q cb hq => ?_⟩
            · rw [hopens, if_neg fun h => h.2 hunknown]
            · rw [hcalls, if_neg]
              rintro rfl
              rw [hknown] at hq
              cases hq
          · rename_i hnew
            refine ⟨_, apart_open now running hknown hcalls (fun q => ?_) hstep⟩
            rw [hopens]
            simp only [hnew, not_false_eq_true, and_true]

lemma run_apart (reached : run (step P listenAddr) (hosted P manual cache) events = some h) :
    ∃ trace, Apart P manual listenAddr cache h events trace := by
  induction events using List.reverseRecOn generalizing h with
  | nil =>
    obtain rfl := Option.some.inj reached
    refine ⟨[], rfl, fun name hname => ?_, fun name cb hcb => ?_⟩
    · rw [history, Option.map_eq_none_iff.mp hname]
      rfl
    · obtain ⟨role, hrole, _⟩ := Option.map_eq_some_iff.mp hcb
      exact ⟨role, by rw [history, hrole]; rfl, Or.inl hrole, nofun⟩
  | append_singleton events event ih =>
    rw [run_snoc] at reached
    obtain ⟨mid, hmid, hstep⟩ := Option.bind_eq_some_iff.mp reached
    obtain ⟨trace, now⟩ := ih hmid
    exact apart_step now hstep

lemma run_lived (reached : run (step P listenAddr) (hosted P manual cache) events = some h)
    {name : Name} {cb : IntcpTransCB F 12} (present : h.nodes name = some cb) :
    ∃ role calls lived, history manual listenAddr name events = some (role, calls) ∧
      run (Op.step (P name)) (.create (P name) role name cache) lived =
        some (withCache cb h.store) ∧
      lived.filter own = calls.filter own := by
  obtain ⟨trace, now⟩ := run_apart reached
  obtain ⟨role, hpast, hmanual, hcreated⟩ := now.present name cb present
  obtain ⟨node, horigin, lived, hrun, hown⟩ := now.projects.lived name cb present
  refine ⟨role, actsOf name trace, lived, hpast, Eq.trans ?_ hrun, hown⟩
  rcases horigin with hstart | ⟨hstart, hnode⟩
  · obtain ⟨role', hrole, rfl⟩ := Option.map_eq_some_iff.mp hstart
    rcases hmanual with hmanual | hmanual
    · obtain rfl := Option.some.inj (hmanual.symm.trans hrole)
      rfl
    · rw [hmanual] at hrole
      cases hrole
  · obtain ⟨c, rfl⟩ := hcreated node hnode
    rfl

/-- Every session of a host has a past of its own: it is the node that lives through the
calls that its own datagrams and threads make, in their order, none lost or repeated, and
beside them only through calls on the shared cache. Without such a past there is no session. -/
theorem run_sessionsApart (P : Name → Platform F) (manual : Name → Option Role)
    (listenAddr : SockAddr) (cache : Cache 12) (events : List Event) {h : Hosted F}
    (reached : run (step P listenAddr) (hosted P manual cache) events = some h) (name : Name) :
    (h.nodes name = none → history manual listenAddr name events = none) ∧
      ∀ cb, h.nodes name = some cb → ∃ role calls lived,
        history manual listenAddr name events = some (role, calls) ∧
        run (Op.step (P name)) (.create (P name) role name cache) lived =
          some (withCache cb h.store) ∧
        lived.filter own = calls.filter own := by
  obtain ⟨trace, now⟩ := run_apart reached
  exact ⟨now.absent name, fun cb present => run_lived reached present⟩

def midAddr : SockAddr := ⟨0, 6000⟩

def clientQuad (i : UInt32) : Quad := .ofAddrs ⟨i, 7000⟩ ⟨9, 5000⟩

/-- An interest of the first client, data for the second, and the threads of their sessions. -/
def midEvents : List Event :=
  [.datagram ⟨1, 7000⟩ ⟨9, 5000⟩ (encodeSeg (InterestPlane.intSeg 0 100 0 0 0 0)),
    .datagram ⟨9, 5000⟩ ⟨2, 7000⟩ (frame (pushSeg freeClock 0 1 1 [21] rfl)),
    .call (clientQuad 1).chars .update, .call (clientQuad 2).chars .update,
    .datagram ⟨9, 5000⟩ ⟨1, 7000⟩ [0], .call (clientQuad 2).chars (.recv 3000)]

/-- A midnode between two clients and a server. -/
theorem run_sessionsApart_mid :
    ∃ h, run (step (fun _ => freeClock) midAddr) (hosted (fun _ => freeClock) (fun _ => none)
        (Cache.fresh fun _ _ => 0)) midEvents = some h ∧
      ((h.nodes (clientQuad 1).chars = none →
          history (fun _ => none) midAddr (clientQuad 1).chars midEvents = none) ∧
        ∀ cb, h.nodes (clientQuad 1).chars = some cb → ∃ role calls lived,
          history (fun _ => none) midAddr (clientQuad 1).chars midEvents = some (role, calls) ∧
          run (Op.step freeClock) (.create freeClock role (clientQuad 1).chars
            (Cache.fresh fun _ _ => 0)) lived = some (withCache cb h.store) ∧
          lived.filter own = calls.filter own) := by
  have hreturns : (run (step (fun _ => freeClock) midAddr) (hosted (fun _ => freeClock)
      (fun _ => none) (Cache.fresh fun _ _ => 0)) midEvents).isSome = true := by
    decide +kernel
  obtain ⟨h, hrun⟩ := Option.isSome_iff_exists.mp hreturns
  exact ⟨h, hrun, run_sessionsApart _ _ _ _ _ hrun _⟩

/-- What a node has queued and sent, by the command of the first segment. -/
structure Tagged (cb : IntcpTransCB F 12) : Prop where
  queued : ∀ seg ∈ cb.sndQueue, seg.cmd = intcpCmdPush
  back : ∀ data ∈ cb.history.toRequester, judgeSegDst data = some .requester
  ahead : ∀ data ∈ cb.history.toResponder, judgeSegDst data = some .responder

lemma judgeSegDst_append {data more : List UInt8} {role : Role}
    (judged : judgeSegDst data = some role) : judgeSegDst (data ++ more) = some role := by
  rw [judgeSegDst] at judged ⊢
  split at judged
  · cases judged
  · rename_i hlong
    rw [Nat.not_lt] at hlong
    obtain ⟨b, rest, rfl⟩ := List.exists_cons_of_length_pos
      (Nat.lt_of_lt_of_le (by decide : 0 < intcpOverhead.toNat) hlong)
    rw [if_neg]
    · exact judged
    · rw [List.length_append]
      omega

/-- The cut of `recvmsg` leaves the first header whole. -/
lemma judgeSegDst_take {data : List UInt8} {role : Role} (judged : judgeSegDst data = some role) :
    judgeSegDst (data.take recvCapacity) = some role := by
  rw [judgeSegDst] at judged
  split at judged
  · cases judged
  · rename_i hlong
    rw [Nat.not_lt] at hlong
    obtain ⟨b, rest, rfl⟩ := List.exists_cons_of_length_pos
      (Nat.lt_of_lt_of_le (by decide : 0 < intcpOverhead.toNat) hlong)
    have hoverhead : intcpOverhead.toNat = 23 := rfl
    rw [judgeSegDst, if_neg]
    · exact judged
    · rw [List.length_take, recvCapacity]
      omega

lemma judgeSegDst_frame (seg : IntcpSeg) : judgeSegDst (encodeSeg seg) =
    if seg.cmd = intcpCmdInt then some .responder else some .requester := by
  have hcmd : (decode8u (encodeSeg seg)).1 = seg.cmd := by
    simp only [encodeSeg, decode8u_encode8u]
  rw [judgeSegDst, hcmd, if_neg]
  rw [length_encodeSeg]
  decide

/-- A buffer of `flushData` is empty, or starts with a PUSH segment. -/
structure Filling (fl : Flushing F 12) (ahead : List IntcpSeg) : Prop where
  tagged : Tagged fl.cb
  queue : fl.cb.sndQueue = ahead
  buf : fl.buf = [] ∨ judgeSegDst fl.buf = some .requester

lemma tagged_output {cb : IntcpTransCB F 12} (h : Tagged cb) {buf : List UInt8}
    (good : buf = [] ∨ judgeSegDst buf = some .requester) : Tagged (output cb buf .requester) := by
  rw [output_requester]
  refine ⟨h.queued, ?_, h.ahead⟩
  rw [datagrams]
  rcases good with rfl | judged
  · simpa using h.back
  · split
    · simpa using h.back
    · exact List.forall_mem_append.mpr ⟨h.back, List.forall_mem_singleton.mpr judged⟩

lemma filling_makeRoom {fl : Flushing F 12} {segs : List IntcpSeg} (h : Filling fl segs)
    (seg : IntcpSeg) : Filling (makeRoom fl seg) segs := by
  rw [makeRoom]
  split
  · refine ⟨tagged_output h.tagged h.buf, ?_, Or.inl rfl⟩
    rw [output_requester]
    exact h.queue
  · exact h

lemma filling_flushSeg {P : Platform F} {fl : Flushing F 12} {seg : IntcpSeg} {rest : List IntcpSeg}
    (h : Filling fl (seg :: rest)) : Filling (flushSeg P fl seg) rest := by
  have hcharged : Filling { fl with cb := { fl.cb with dataOutputLimit :=
      (fl.cb.dataOutputLimit.toUInt32 - (intcpOverhead + seg.len)).toInt32 } } (seg :: rest) :=
    ⟨⟨h.tagged.queued, h.tagged.back, h.tagged.ahead⟩, h.queue, h.buf⟩
  have hroom := filling_makeRoom hcharged seg
  rw [flushSeg]
  generalize makeRoom _ seg = room at hroom ⊢
  have hpush : seg.cmd = intcpCmdPush :=
    hroom.tagged.queued seg (hroom.queue ▸ List.mem_cons_self)
  have htail : room.cb.sndQueue.tail = rest := by rw [hroom.queue, List.tail_cons]
  refine ⟨⟨?_, hroom.tagged.back, hroom.tagged.ahead⟩, htail, Or.inr ?_⟩
  · simp only [htail]
    exact fun s hs => hroom.tagged.queued s (hroom.queue ▸ List.mem_cons_of_mem _ hs)
  · have hframe : judgeSegDst (frame (stamp P room.cb seg)) = some .requester := by
      refine judgeSegDst_append ?_
      rw [judgeSegDst_frame, if_neg]
      rw [stamp, hpush]
      decide
    rcases hroom.buf with hempty | judged
    · simp only [hempty, List.nil_append]
      exact hframe
    · exact judgeSegDst_append judged

lemma tagged_flushData {P : Platform F} {cb : IntcpTransCB F 12} (h : Tagged cb) :
    Tagged (flushData P cb) := by
  simp only [flushData]
  generalize hstart : Flushing.mk _ [] = fl
  have hfl : Filling fl cb.sndQueue := by
    rw [← hstart]
    exact ⟨⟨h.queued, h.back, h.ahead⟩, rfl, Or.inl rfl⟩
  obtain ⟨rest, hfilled⟩ := flushSegs_rule (P := P) Filling (fun _ _ _ h => filling_flushSeg h) hfl
  have htagged := hfilled.tagged
  apply tagged_output
  · exact ⟨htagged.queued, htagged.back, htagged.ahead⟩
  · exact hfilled.buf

lemma tagged_effect {P : Platform F} {cb cb' : IntcpTransCB F 12} (h : Tagged cb)
    (effect : Effect P True True cb cb') : Tagged cb' := by
  cases effect with
  | quiet same =>
    refine ⟨?_, ?_, ?_⟩
    · rw [same.sndQueue]
      exact h.queued
    · rw [same.toRequester]
      exact h.back
    · rw [same.toResponder]
      exact h.ahead
  | read name s e => exact ⟨h.queued, h.back, h.ahead⟩
  | insert name s e dataBuf hcache => exact ⟨h.queued, h.back, h.ahead⟩
  | queue segs push =>
    exact ⟨List.forall_mem_append.mpr ⟨h.queued, push trivial⟩, h.back, h.ahead⟩
  | ask s e =>
    rw [outputInt_eq]
    refine ⟨h.queued, h.back, List.forall_mem_append.mpr ⟨h.ahead, ?_⟩⟩
    exact List.forall_mem_singleton.mpr (judgeSegDst_frame _)
  | send => exact tagged_flushData h
  | timer updated next free => exact ⟨h.queued, h.back, h.ahead⟩

lemma run_tagged {P : Platform F} {role : Role} {name : Name} {cache : Cache 12}
    {ops : List (Op 12)} {cb : IntcpTransCB F 12} (push : ∀ op ∈ ops, PushCall op)
    (hrun : run (Op.step P) (.create P role name cache) ops = some cb) : Tagged cb :=
  run_invariant_all Tagged
    (fun _ _ _ h push hstep => Effects.keep Tagged (fun _ _ h effect => tagged_effect h effect)
      (step_effects (fun _ => push) (fun _ => trivial) hstep) h)
    ⟨by simp [IntcpTransCB.create], by simp [IntcpTransCB.create], by simp [IntcpTransCB.create]⟩
    push hrun

/-- The calls of the threads are of the kind that threads make. -/
def ThreadCall : Event → Prop
  | .datagram _ _ _ => True
  | .call _ op => PushCall op

instance : ∀ event, Decidable (ThreadCall event)
  | .datagram _ _ _ => inferInstanceAs (Decidable True)
  | .call _ op => inferInstanceAs (Decidable (PushCall op))

lemma callOn_push {event : Event} (thread : ThreadCall event) {name : Name} {op : Op 12}
    (h : event.callOn name = some op) : PushCall op := by
  cases event with
  | datagram sendAddr recvAddr data =>
    simp only [Event.callOn] at h
    split at h
    · cases h
    · split at h
      · obtain rfl := Option.some.inj h
        trivial
      · cases h
  | call other op' =>
    simp only [Event.callOn] at h
    split at h
    · obtain rfl := Option.some.inj h
      exact thread
    · cases h

lemma history_push {manual : Name → Option Role} {listenAddr : SockAddr} {name : Name}
    {events : List Event} (thread : ∀ event ∈ events, ThreadCall event) {role : Role}
    {calls : List (Op 12)} (h : history manual listenAddr name events = some (role, calls)) :
    ∀ op ∈ calls, PushCall op := by
  induction events using List.reverseRecOn generalizing role calls with
  | nil =>
    rw [history] at h
    split at h
    · obtain ⟨_, rfl⟩ := Prod.mk.inj (Option.some.inj h)
      simp
    · cases h
  | append_singleton events event ih =>
    have hearlier : ∀ e ∈ events, ThreadCall e := fun e he => thread e (List.mem_append_left _ he)
    have hnew : ∀ op ∈ (event.callOn name).toList, PushCall op := by
      intro op hop
      exact callOn_push (thread event (by simp)) (by simpa using hop)
    rw [history_snoc] at h
    cases hpast : history manual listenAddr name events with
    | none =>
      rw [hpast, Event.extend] at h
      obtain ⟨_, _, heq⟩ := Option.map_eq_some_iff.mp h
      obtain ⟨_, rfl⟩ := Prod.mk.inj heq
      exact hnew
    | some past =>
      rw [hpast, Event.extend] at h
      obtain ⟨_, rfl⟩ := Prod.mk.inj (Option.some.inj h)
      exact List.forall_mem_append.mpr ⟨ih hearlier hpast, hnew⟩

/-- What a session sends, from the addresses that its sockets have, is for the session of the
same quadruple wherever it arrives: interests that go to the responder, and data that goes
back to the requester. -/
theorem run_sendsHome (P : Name → Platform F) (manual : Name → Option Role)
    (listenAddr : SockAddr) (cache : Cache 12) (events : List Event) {h : Hosted F}
    (thread : ∀ event ∈ events, ThreadCall event)
    (reached : run (step P listenAddr) (hosted P manual cache) events = some h)
    (quad : Quad) {cb : IntcpTransCB F 12} (present : h.nodes quad.chars = some cb) (name : Name) :
    (∀ data ∈ cb.history.toResponder,
      (Event.datagram quad.getReqAddr quad.getRespAddr data).callOn name =
        if quad.chars = name then some (.input (data.take recvCapacity)) else none) ∧
    ∀ data ∈ cb.history.toRequester,
      (Event.datagram quad.getRespAddr quad.getReqAddr data).callOn name =
        if quad.chars = name then some (.input (data.take recvCapacity)) else none := by
  obtain ⟨role, calls, lived, hpast, hrun, hown⟩ := run_lived reached present
  have hpush : ∀ op ∈ lived, PushCall op := by
    intro op hop
    by_cases hmine : own op = true
    · have hcall : op ∈ calls.filter own := hown ▸ List.mem_filter.mpr ⟨hop, hmine⟩
      exact history_push thread hpast op (List.mem_filter.mp hcall).1
    · cases op with
      | parseData seg header => exact absurd rfl hmine
      | _ => trivial
  have htagged := run_tagged hpush hrun
  constructor
  · intro data hdata
    exact callOn_datagram _ _ data (judgeSegDst_take (htagged.ahead data hdata)) name
  · intro data hdata
    exact callOn_datagram _ _ data (judgeSegDst_take (htagged.back data hdata)) name

/-- The midnode of two clients, with an interest and a datagram of data on their way. -/
theorem run_sendsHome_mid :
    ∃ h cb, run (step (fun _ => freeClock) midAddr) (hosted (fun _ => freeClock) (fun _ => none)
        (Cache.fresh fun _ _ => 0)) midEvents = some h ∧ h.nodes (clientQuad 1).chars = some cb ∧
      (∀ data ∈ cb.history.toResponder,
        (Event.datagram (clientQuad 1).getReqAddr (clientQuad 1).getRespAddr data).callOn
          (clientQuad 1).chars = if (clientQuad 1).chars = (clientQuad 1).chars then
            some (.input (data.take recvCapacity)) else none) ∧
      ∀ data ∈ cb.history.toRequester,
        (Event.datagram (clientQuad 1).getRespAddr (clientQuad 1).getReqAddr data).callOn
          (clientQuad 1).chars = if (clientQuad 1).chars = (clientQuad 1).chars then
            some (.input (data.take recvCapacity)) else none := by
  have hreturns : ((run (step (fun _ => freeClock) midAddr) (hosted (fun _ => freeClock)
      (fun _ => none) (Cache.fresh fun _ _ => 0)) midEvents).bind
        fun h => h.nodes (clientQuad 1).chars).isSome = true := by
    decide +kernel
  obtain ⟨cb, hcb⟩ := Option.isSome_iff_exists.mp hreturns
  obtain ⟨h, hrun, hpresent⟩ := Option.bind_eq_some_iff.mp hcb
  exact ⟨h, cb, hrun, hpresent,
    run_sendsHome _ _ _ _ _ (by decide +kernel) hrun _ hpresent _⟩

end SessionHost
