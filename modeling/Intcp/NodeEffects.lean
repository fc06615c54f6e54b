import Intcp.CallRules
import Mathlib.Logic.Relation

/-!
# What a call does outside a node

All that other sessions and other hosts can notice of a call is made of a few
effects: reads and inserts on the shared cache, segments that join the send queue,
interests that are sent, and `flushData`.
-/

namespace NodeEffects

open FuelledLoop Words BlockCache TransControl SegmentCodec DataPlane HoleTracking InterestPlane
  NodeCore CallRules

universe u
variable {F : Type u} {nameLen : Nat}

/-- Nothing that can be noticed outside is written, nor the timer of `update`. -/
structure Quiet (cb cb' : IntcpTransCB F nameLen) : Prop where
  nodeRole : cb'.nodeRole = cb.nodeRole
  nameChars : cb'.nameChars = cb.nameChars
  cache : cb'.cache = cb.cache
  sndQueue : cb'.sndQueue = cb.sndQueue
  toRequester : cb'.history.toRequester = cb.history.toRequester
  toResponder : cb'.history.toResponder = cb.history.toResponder
  updated : cb'.updated = cb.updated
  nextFlushTs : cb'.nextFlushTs = cb.nextFlushTs
  reads : cb.reads ≤ cb'.reads

/-- The effects of a node; `tagged` where nothing but PUSH segments is ever queued, `timed` where
the timer of `update` may be set. -/
inductive Effect (P : Platform F) (tagged timed : Prop) :
    IntcpTransCB F nameLen → IntcpTransCB F nameLen → Prop
  | quiet {cb cb'} (same : Quiet cb cb') : Effect P tagged timed cb cb'
  | read (cb) (name : Vector UInt8 nameLen) (s e : UInt32) :
      Effect P tagged timed cb
        { cb with cache := (BlockCache.read cb.cache name s e fun _ => 0).cache }
  | insert (cb) (name : Vector UInt8 nameLen) (s e : UInt32) (dataBuf : Buffer) {cache}
      (h : BlockCache.insert cb.cache name s e dataBuf = some cache) :
      Effect P tagged timed cb { cb with cache := cache }
  | queue (cb) (segs : List IntcpSeg) (push : tagged → ∀ seg ∈ segs, seg.cmd = intcpCmdPush) :
      Effect P tagged timed cb (enqueueAll cb segs)
  | ask (cb) (s e : UInt32) : Effect P tagged timed cb (outputInt P cb s e)
  | send (cb) : Effect P tagged timed cb (flushData P cb)
  | timer (cb) (updated next : UInt32) (free : timed) :
      Effect P tagged timed cb { cb with updated := updated, nextFlushTs := next }

def Effects (P : Platform F) (tagged timed : Prop) (cb cb' : IntcpTransCB F nameLen) : Prop :=
  Relation.ReflTransGen (Effect P tagged timed) cb cb'

/-- What every effect keeps, a call keeps. -/
theorem Effects.keep {P : Platform F} {tagged timed : Prop} (Inv : IntcpTransCB F nameLen → Prop)
    (effect : ∀ cb cb', Inv cb → Effect P tagged timed cb cb' → Inv cb')
    {cb cb' : IntcpTransCB F nameLen} (effects : Effects P tagged timed cb cb') (start : Inv cb) :
    Inv cb' := by
  induction effects with
  | refl => exact start
  | tail _ heffect ih => exact effect _ _ ih heffect

variable {P : Platform F} {tagged timed : Prop} {first cb cb' : IntcpTransCB F nameLen}

lemma Effects.quiet (effects : Effects P tagged timed first cb) (same : Quiet cb cb') :
    Effects P tagged timed first cb' :=
  effects.tail (.quiet same)

/-- What others can notice of a node between two effects, and the timer of `update`. -/
def noticed (cb : IntcpTransCB F nameLen) :=
  (cb.nodeRole, cb.nameChars, cb.cache, cb.sndQueue, cb.history.toRequester,
    cb.history.toResponder, cb.updated, cb.nextFlushTs)

lemma Effects.within (effects : Effects P tagged timed first cb) (same : noticed cb' = noticed cb)
    (reads : cb.reads ≤ cb'.reads) : Effects P tagged timed first cb' := by
  simp only [noticed, Prod.mk.injEq] at same
  obtain ⟨nodeRole, nameChars, cache, sndQueue, toRequester, toResponder, updated, next⟩ := same
  exact effects.quiet
    ⟨nodeRole, nameChars, cache, sndQueue, toRequester, toResponder, updated, next, reads⟩

lemma effects_tick (effects : Effects P tagged timed first cb) :
    Effects P tagged timed first (tick cb) :=
  effects.within rfl (Nat.le_succ _)

lemma effects_outputInt (effects : Effects P tagged timed first cb) (s e : UInt32) :
    Effects P tagged timed first (outputInt P cb s e) := effects.tail (.ask cb s e)

lemma chunks_push (fuel : Nat) (buffer : Buffer) (start len : UInt32) :
    ∀ seg ∈ chunks P fuel buffer start len, seg.cmd = intcpCmdPush := by
  induction fuel generalizing buffer start len with
  | zero => simp [chunks]
  | succ fuel ih =>
    rw [chunks]
    split
    · simp
    · exact List.forall_mem_cons.mpr ⟨rfl, ih _ _ _⟩

lemma effects_send (effects : Effects P tagged timed first cb) (buffer : Buffer)
    (start stop : UInt32) :
    Effects P tagged timed first (enqueueAll cb (sentSegs P buffer start stop)) := by
  refine effects.tail (.queue cb _ fun _ => ?_)
  rw [sentSegs]
  split
  · simp
  · exact chunks_push _ _ _ _

lemma effects_request (effects : Effects P tagged timed first cb) (s e : UInt32) :
    Effects P tagged timed first (request P cb s e).2 := by
  simp only [request]
  split
  · exact effects
  · split
    · exact effects.within rfl (Nat.le_refl _)
    · exact effects.within rfl (Nat.le_refl _)

lemma effects_parseInt (effects : Effects P tagged timed first cb) (s e : UInt32) :
    Effects P tagged timed first (parseInt P cb s e) := by
  refine parseInt_rule (Effects P tagged timed first) ?_ ?_ s e ?_ ?_ ?_ ?_ effects
  · intro cb s e h
    exact h.tail (.read cb cb.nameChars s e)
  · intro cb buffer start stop h
    exact effects_send h buffer start stop
  · intro cb ir h _
    exact h.within rfl (Nat.le_refl _)
  · intro cb h
    exact effects_tick h
  · intro cb s h _
    exact effects_outputInt h s e
  · intro cb s h _ _
    exact effects_request h s e

lemma effects_header (effects : Effects P tagged timed first cb) (s e : UInt32) :
    Effects P tagged timed first (sendDataHeader P cb s e) := by
  rw [sendDataHeader, enqueue_eq]
  exact effects.tail (.queue cb _ fun _ => List.forall_mem_singleton.mpr rfl)

lemma effects_notifyNewData (effects : Effects P tagged timed first cb) (buffer : Buffer)
    (s e : UInt32) : Effects P tagged timed first (notifyNewData P cb buffer s e) := by
  have hreleased : Effects P tagged timed first (releaseInts P buffer s e cb cb.pendingInts).1 :=
    releaseInts_rule (Effects P tagged timed first)
      (fun _ buffer start stop h => effects_send h buffer start stop) buffer s e effects
      cb.pendingInts
  exact hreleased.within rfl (Nat.le_refl _)

lemma effects_recv (effects : Effects P tagged timed first cb) (maxBufSize : Int32) :
    Effects P tagged timed first (recv cb maxBufSize).2 := by
  rw [recv]
  split
  · exact effects
  · split
    · split
      · exact effects.within rfl (Nat.le_refl _)
      · split
        · exact effects.within rfl (Nat.le_refl _)
        · exact effects
    · exact effects.within rfl (Nat.le_refl _)

lemma effects_inputInt (effects : Effects P tagged timed first cb) (s : IntcpSeg) :
    Effects P tagged timed first (inputInt P cb s) := by
  have hset : ∀ owd rate, Effects P tagged timed first
      { tick cb with intHopOwd := owd, rmtSendRate := rate } :=
    fun _ _ => effects.within rfl (Nat.le_succ _)
  simp only [inputInt]
  split
  · exact hset _ _
  · exact effects_parseInt (hset _ _) s.rangeStart s.rangeEnd

lemma effects_detect (effects : Effects P tagged timed first cb) (s : IntcpSeg) :
    Effects P tagged timed first (detect P cb s) := by
  simp only [detect, detectDataHole]
  split
  · exact effects.within rfl (Nat.le_refl _)
  · split
    · exact effects.within rfl (Nat.le_refl _)
    · split
      · exact effects.within rfl (Nat.le_refl _)
      · have hnew : Effects P tagged timed first
            (insertDataHole P cb cb.dataNextRangeStart s.rangeStart) :=
          effects.within rfl (Nat.le_succ _)
        split
        · exact (effects_header hnew _ _).within rfl (Nat.le_refl _)
        · exact hnew.within rfl (Nat.le_refl _)

lemma effects_parseData (effects : Effects P tagged timed first cb) {seg : IntcpSeg} (header : Bool)
    (push : tagged → seg.cmd = intcpCmdPush) :
    Effects P tagged timed first (parseData cb seg header) := by
  have hsent : Effects P tagged timed first
      (if cb.nodeRole ≠ .requester then enqueue cb seg else cb) := by
    split
    · rw [enqueue_eq]
      exact effects.tail (.queue cb _ fun h => List.forall_mem_singleton.mpr (push h))
    · exact effects
  simp only [parseData]
  cases header with
  | true => exact hsent
  | false => exact hsent.within rfl (Nat.le_refl _)

lemma effects_inputPush (effects : Effects P tagged timed first cb) (current : UInt32) {s : IntcpSeg}
    (push : s.cmd = intcpCmdPush) : Effects P tagged timed first (inputPush P cb current s).2 := by
  have hmeasured : Effects P tagged timed first (measureHop P cb current s) := by
    refine measureHop_rule (Effects P tagged timed first) ?_ ?_ ?_ effects current s
    · intro cb h
      exact effects_tick h
    · intro cb cc rest h
      exact h.within rfl (Nat.le_refl _)
    · intro cb h _
      exact effects_outputInt h 0 0
  have hdetected := effects_detect hmeasured s
  simp only [inputPush]
  split
  · exact effects_parseData hdetected true fun _ => push
  · split
    · exact hdetected
    · exact effects_parseData hdetected false fun _ => push

lemma effects_input (effects : Effects P tagged timed first cb) (data : List UInt8) :
    Effects P tagged timed first (input P cb data).2 := by
  refine input_rule (Effects P tagged timed first) (fun _ => True) ?_ ?_ ?_ data
    (fun _ _ => trivial) effects
  · intro cb h
    exact effects_tick h
  · intro cb s h _ _
    exact effects_inputInt h s
  · intro cb current s h _ push
    exact effects_inputPush h current push

lemma effects_flushIntQueue (effects : Effects P tagged timed first cb)
    (h : flushIntQueue P cb = some cb') : Effects P tagged timed first cb' := by
  refine loop_invariant (Effects P tagged timed first) (Effects P tagged timed first) ?_ ?_ effects h
  · intro s t hs hb
    rw [queuePass] at hb
    split at hb
    · cases hb
    · cases hb
      exact hs.within rfl (Nat.le_refl _)
  · intro s r hs hb
    rw [queuePass] at hb
    split at hb <;> cases hb
    exact hs

lemma effects_chargeLimit (effects : Effects P tagged timed first cb) (size : UInt32) :
    Effects P tagged timed first (chargeLimit cb size) := by
  rw [chargeLimit]
  split
  · exact effects.within rfl (Nat.le_refl _)
  · exact effects

lemma effects_sendInt (effects : Effects P tagged timed first cb) (seg : IntcpSeg) :
    Effects P tagged timed first (sendInt P cb seg) := by
  have hdeleted : Effects P tagged timed first
      (deleteDataHole (noteTimeout cb seg) seg.rangeStart seg.rangeEnd) :=
    effects.within rfl (Nat.le_refl _)
  exact effects_outputInt hdeleted seg.rangeStart seg.rangeEnd

lemma effects_flushInts (fl : IntFlush F nameLen) (effects : Effects P tagged timed first fl.cb)
    (segs : List IntcpSeg) : Effects P tagged timed first (flushInts P fl segs).cb := by
  refine flushInts_rule (fun fl _ => Effects P tagged timed first fl.cb) ?_ ?_ ?_ ?_ ?_ effects
  · intro fl seg rest h
    exact effects_tick h
  · intro fl seg rest h _
    exact effects_tick h
  · intro fl seg rest size h _
    exact (effects_chargeLimit (effects_tick h) size).within rfl (Nat.le_refl _)
  · intro fl seg rest n h _
    exact (effects_sendInt (effects_tick h) seg).within rfl (Nat.le_refl _)
  · intro fl seg rest n size ts h _
    exact effects_sendInt (effects_chargeLimit (effects_tick h) size) seg

lemma effects_sendInts (effects : Effects P tagged timed first cb) (newOutput : Int32) :
    Effects P tagged timed first (sendInts P cb newOutput) := by
  have hsent := effects_flushInts ⟨cb, [], 0, false⟩ effects cb.intBuf
  simp only [sendInts]
  split
  · exact hsent.within rfl (Nat.le_refl _)
  · exact hsent.within rfl (Nat.le_refl _)

lemma effects_flushIntBuf (effects : Effects P tagged timed first cb) :
    Effects P tagged timed first (flushIntBuf P cb) := by
  rw [flushIntBuf]
  split
  · exact effects
  · apply effects_sendInts
    exact effects.within rfl (Nat.le_succ _)

/-- The clock is only read on. -/
lemma reads_splitInts (rangeStart rangeEnd : UInt32) (cb : IntcpTransCB F nameLen)
    (segs : List IntcpSeg) : cb.reads ≤ (splitInts P rangeStart rangeEnd cb segs).1.reads := by
  induction segs generalizing cb with
  | nil => exact Nat.le_refl _
  | cons seg rest ih =>
    rw [splitInts]
    split
    · exact Nat.le_refl _
    · split
      · exact ih cb
      · exact Nat.le_trans (Nat.le_succ _) (ih (tick cb))

lemma effects_flushDataHoles (effects : Effects P tagged timed first cb) :
    Effects P tagged timed first (flushDataHoles P cb) := by
  have hflushed : Effects P tagged timed first
      (flushHoles P (getMillisec P cb) (tick cb) cb.dataHoles).1 := by
    refine flushHoles_rule (Effects P tagged timed first) _ _ ?_ ?_ ?_ (effects_tick effects)
    · intro cb b h
      exact h.within rfl (Nat.le_refl _)
    · intro cb hole _ h
      exact effects_parseInt h hole.startByte hole.endByte
    · intro cb hole _ h _
      obtain ⟨n, hn⟩ := splitInts_reads (P := P) hole.startByte hole.endByte cb cb.intBuf
      have hreads := reads_splitInts (P := P) hole.startByte hole.endByte cb cb.intBuf
      rw [hn] at hreads
      rw [updateIntBuf, hn]
      exact h.within rfl hreads
  exact hflushed.within rfl (Nat.le_refl _)

lemma effects_flush (effects : Effects P tagged timed first cb) (h : flush P cb = some cb') :
    Effects P tagged timed first cb' := by
  refine flush_rule (Effects P tagged timed first) ?_ ?_ ?_ ?_ ?_ ?_ effects h
  · intro cb h
    exact effects_tick h
  · intro cb cb' h _ hqueue
    exact effects_flushIntQueue h hqueue
  · intro cb h
    exact effects_flushIntBuf h
  · intro cb h _
    exact effects_flushDataHoles h
  · intro cb h _
    exact h.tail (.send cb)
  · intro cb ts h
    exact h.within rfl (Nat.le_refl _)

lemma effects_update (free : timed) (effects : Effects P tagged timed first cb)
    (h : update P cb = some cb') : Effects P tagged timed first cb' := by
  refine update_rule (Effects P tagged timed first) ?_ ?_ ?_ ?_ effects h
  · intro cb h
    exact effects_tick h
  · intro cb now h
    exact h.within rfl (Nat.le_refl _)
  · intro cb updated next h
    exact h.tail (.timer cb updated next free)
  · intro cb cb' h hflush
    exact effects_flush h hflush

/-- `parseData` is only ever called with segments that carry data. -/
def PushCall : Op nameLen → Prop
  | .parseData seg _ => seg.cmd = intcpCmdPush
  | _ => True

instance : ∀ op : Op nameLen, Decidable (PushCall op)
  | .parseData seg _ => inferInstanceAs (Decidable (seg.cmd = intcpCmdPush))
  | .input _ => inferInstanceAs (Decidable True)
  | .request _ _ => inferInstanceAs (Decidable True)
  | .parseInt _ _ => inferInstanceAs (Decidable True)
  | .notifyNewData _ _ _ => inferInstanceAs (Decidable True)
  | .insertData _ _ _ => inferInstanceAs (Decidable True)
  | .sendData _ _ _ => inferInstanceAs (Decidable True)
  | .sendDataHeader _ _ => inferInstanceAs (Decidable True)
  | .recv _ => inferInstanceAs (Decidable True)
  | .flush => inferInstanceAs (Decidable True)
  | .update => inferInstanceAs (Decidable True)
  | .cacheInsert _ _ _ _ => inferInstanceAs (Decidable True)
  | .cacheRead _ _ _ => inferInstanceAs (Decidable True)

/-- A call is a sequence of effects. -/
theorem step_effects {op : Op nameLen} (push : tagged → PushCall op) (free : op = .update → timed)
    (h : op.step P cb = some cb') : Effects P tagged timed cb cb' := by
  have start : Effects P tagged timed cb cb := .refl
  rw [Op.step] at h
  split at h
  · cases h
    exact start
  · cases op with
    | input data =>
      cases h
      exact effects_input start data
    | request s e =>
      cases h
      exact effects_request start s e
    | parseInt s e =>
      cases h
      exact effects_parseInt start s e
    | notifyNewData buffer s e =>
      cases h
      exact effects_notifyNewData start buffer s e
    | insertData buffer s e =>
      obtain ⟨cache, hcache, rfl⟩ := Option.map_eq_some_iff.mp h
      exact effects_notifyNewData (start.tail (.insert cb cb.nameChars s e buffer hcache)) buffer s e
    | sendData buffer s e =>
      cases h
      rw [sendData_eq]
      exact effects_send start buffer s e
    | sendDataHeader s e =>
      cases h
      exact effects_header start s e
    | parseData seg header =>
      cases h
      exact effects_parseData start header push
    | recv maxBufSize =>
      cases h
      exact effects_recv start maxBufSize
    | flush => exact effects_flush start h
    | update => exact effects_update (free rfl) start h
    | cacheInsert name s e dataBuf =>
      obtain ⟨cache, hcache, rfl⟩ := Option.map_eq_some_iff.mp h
      exact start.tail (.insert cb name s e dataBuf hcache)
    | cacheRead name s e =>
      cases h
      exact start.tail (.read cb name s e)

end NodeEffects
