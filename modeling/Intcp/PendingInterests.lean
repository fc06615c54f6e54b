import Intcp.CallRules
import Intcp.LastWrite

/-!
# Interests that wait at the responder

A responder serves the cached prefix of an interest and keeps the rest in
`pendingInts`, where later data releases it. A byte that waits although it is
cached is stranded: only an insert that covers it again would release it. Which
calls strand no byte is decided by what they find: an interest must have its
cached bytes in front, and new data must lie within reach of the signed
comparison with every waiting range that it meets.
-/

namespace PendingInterests

open FuelledLoop StepRuns Words BlockCache SlotTables LruOrder CacheContents TransControl DataPlane
  InterestPlane NodeCore CallRules LastWrite

universe u
variable {F : Type u} {nameLen : Nat} {P : Platform F}

instance (ranges : List Slot) (o : UInt32) : Decidable (Claims ranges o) :=
  haveI : ∀ r : Slot, Decidable (Slot.Holds r o) := fun _ => inferInstanceAs (Decidable (_ ∧ _))
  inferInstanceAs (Decidable (∃ r ∈ ranges, Slot.Holds r o))

/-- The cache has the byte at offset `o` under the name of the session. -/
def Resident (cb : IntcpTransCB F nameLen) (o : UInt32) : Prop :=
  ∃ block ∈ cb.cache.dataMap (nameSeqToKey cb.nameChars (firstBlock o)), Claims block.ranges o

instance (cb : IntcpTransCB F nameLen) (o : UInt32) : Decidable (Resident cb o) :=
  inferInstanceAs (Decidable (∃ block ∈ cb.cache.dataMap _, Claims block.ranges o))

def Waits (p : ByteRange) (o : UInt32) : Prop := p.startByte ≤ o ∧ o < p.endByte

instance (p : ByteRange) (o : UInt32) : Decidable (Waits p o) :=
  inferInstanceAs (Decidable (_ ∧ _))

/-- No byte of a pending range is in the cache. -/
def NeverStranded (cb : IntcpTransCB F nameLen) : Prop :=
  ∀ p ∈ cb.pendingInts, ∀ o, Waits p o → ¬ Resident cb o

/-- The calls of a responder that gets data and interests. -/
def Fed : Op nameLen → Prop
  | .insertData _ s e => Proper s e
  | .parseInt s e => s < e
  | _ => False

instance : ∀ op : Op nameLen, Decidable (Fed op)
  | .insertData _ s e => inferInstanceAs (Decidable (Proper s e))
  | .parseInt s e => inferInstanceAs (Decidable (s < e))
  | .input _ | .request _ _ | .notifyNewData _ _ _ | .sendData _ _ _ | .sendDataHeader _ _
  | .parseData _ _ | .recv _ | .flush | .update | .cacheInsert _ _ _ _ | .cacheRead _ _ _ =>
    inferInstanceAs (Decidable False)

/-- No block is dropped for the blocks that an insert visits. -/
def NothingEvicted (c : Cache nameLen) (name : Vector UInt8 nameLen) (s e : UInt32) : Prop :=
  ∀ node ∈ c.lruList ++ visited name s e, node ∈ enterAll maxBlockNum c.lruList (visited name s e)

/-- Nothing overflows and nothing is evicted. -/
def Fits (cb : IntcpTransCB F nameLen) : Op nameLen → Prop
  | .insertData _ s e =>
    Room cb.cache cb.nameChars s e ∧ NothingEvicted cb.cache cb.nameChars s e
  | _ => True

instance (cb : IntcpTransCB F nameLen) : ∀ op : Op nameLen, Decidable (Fits cb op)
  | .insertData _ s e =>
    haveI : Decidable (NothingEvicted cb.cache cb.nameChars s e) :=
      inferInstanceAs (Decidable (∀ node ∈ _, node ∈ _))
    inferInstanceAs (Decidable (_ ∧ _))
  | .input _ | .request _ _ | .notifyNewData _ _ _ | .sendData _ _ _ | .sendDataHeader _ _
  | .parseData _ _ | .recv _ | .flush | .update | .cacheInsert _ _ _ _ | .cacheRead _ _ _
  | .parseInt _ _ => inferInstanceAs (Decidable True)

/-- The cached bytes of an interest come before the others; new data is at most 2^31
ahead of the start and less than 2^31 behind the end of each waiting range it meets. -/
def Answerable (cb : IntcpTransCB F nameLen) : Op nameLen → Prop
  | .parseInt s e => ∀ o o', s ≤ o' → o' < o → o < e → Resident cb o → Resident cb o'
  | .insertData _ s e => ∀ p ∈ cb.pendingInts, p.startByte < e → s < p.endByte →
      e.toNat - p.startByte.toNat ≤ 2 ^ 31 ∧ p.endByte.toNat - s.toNat < 2 ^ 31
  | _ => True

lemma resident_iff {cb : IntcpTransCB F nameLen} {o : UInt32} :
    Resident cb o ↔ ∃ v, Cached cb.cache cb.nameChars o v := by
  constructor
  · rintro ⟨block, hblock, hclaims⟩
    exact ⟨_, block, hblock, hclaims, rfl⟩
  · rintro ⟨v, block, hblock, hclaims, _⟩
    exact ⟨block, hblock, hclaims⟩

/-- The calls that only look things up leave the bytes of the cache where they are. -/
structure SameView (cb cb' : IntcpTransCB F nameLen) : Prop where
  dataMap : cb'.cache.dataMap = cb.cache.dataMap
  name : cb'.nameChars = cb.nameChars
  pending : cb'.pendingInts = cb.pendingInts
  role : cb'.nodeRole = cb.nodeRole
  state : cb'.state = cb.state
  wellFormed : WellFormed cb'.cache

lemma SameView.resident {cb cb' : IntcpTransCB F nameLen} (same : SameView cb cb') (o : UInt32) :
    Resident cb' o ↔ Resident cb o := by
  rw [Resident, Resident, same.dataMap, same.name]

lemma SameView.topFree {cb cb' : IntcpTransCB F nameLen} (same : SameView cb cb')
    (free : TopFree cb.cache cb.nameChars) : TopFree cb'.cache cb'.nameChars := by
  rw [TopFree, same.dataMap, same.name]
  exact free

lemma SameView.enqueueAll {cb cb' : IntcpTransCB F nameLen} (same : SameView cb cb')
    (segs : List IntcpSeg) : SameView cb (enqueueAll cb' segs) :=
  ⟨same.dataMap, same.name, same.pending, same.role, same.state, same.wellFormed⟩

lemma SameView.send {cb cb' : IntcpTransCB F nameLen} (same : SameView cb cb') (buffer : Buffer)
    (start stop : UInt32) : SameView cb (sendData P cb' buffer start stop).2 := by
  rw [sendData_eq]
  exact same.enqueueAll _

/-- What `fetchData` delivers of a range: its longest cached prefix. -/
structure Fetched (cb : IntcpTransCB F nameLen) (s e : UInt32)
    (got : UInt32 × Buffer × IntcpTransCB F nameLen) : Prop where
  same : SameView cb got.2.2
  within : got.1.toNat ≤ e.toNat - s.toNat
  before : ∀ o, s ≤ o → o.toNat < s.toNat + got.1.toNat → Resident cb o
  gap : ∀ o, o.toNat = s.toNat + got.1.toNat → o < e → ¬ Resident cb o

lemma fetchData_fetched {cb cb' : IntcpTransCB F nameLen} (same : SameView cb cb')
    (free : TopFree cb.cache cb.nameChars) {s e : UInt32} (proper : s < e) :
    Fetched cb s e (fetchData cb' s e) := by
  have delivers := read_delivers same.wellFormed cb'.nameChars proper (.inr (same.topFree free))
    fun _ => 0
  have hwithin := delivers.within
  have hend := e.toNat_lt
  have hsmall : (BlockCache.read cb'.cache cb'.nameChars s e fun _ => 0).readlen < 2 ^ 32 := by
    omega
  have hlen : (fetchData cb' s e).1.toNat =
      (BlockCache.read cb'.cache cb'.nameChars s e fun _ => 0).readlen :=
    UInt32.toNat_ofNat_of_lt' hsmall
  refine ⟨?_, by omega, ?_, ?_⟩
  · exact ⟨delivers.same.trans same.dataMap, same.name, same.pending, same.role, same.state,
      delivers.wellFormed⟩
  · intro o hs ho
    rw [hlen] at ho
    rw [← same.resident]
    exact resident_iff.mpr ⟨_, delivers.bytes o hs ho⟩
  · intro o ho he hres
    rw [hlen] at ho
    rw [← same.resident] at hres
    obtain ⟨v, hv⟩ := resident_iff.mp hres
    exact delivers.longest o ho he v hv

lemma not_resident_top {cb : IntcpTransCB F nameLen} (free : TopFree cb.cache cb.nameChars)
    {o : UInt32} (top : 2 ^ 32 - 4096 ≤ o.toNat) : ¬ Resident cb o := by
  intro hres
  obtain ⟨v, hv⟩ := resident_iff.mp hres
  exact not_cached_top free top v hv

/-- A round whose end wraps fetches nothing. -/
lemma fetchData_wrapped (cb : IntcpTransCB F nameLen) {s : UInt32} (e : UInt32)
    (wraps : 2 ^ 32 ≤ s.toNat + 1449) :
    (fetchData cb s (imin e (s + intcpMss))).1 = 0 ∧
      (fetchData cb s (imin e (s + intcpMss))).2.2 = cb := by
  have hs := s.toNat_lt
  have hbefore : imin e (s + intcpMss) ≤ firstBlock s := by
    rw [UInt32.le_iff_toNat_le, toNat_imin, UInt32.toNat_add, toNat_intcpMss, toNat_firstBlock]
    omega
  rw [fetchData, read_nothing hbefore]
  exact ⟨rfl, rfl⟩

/-- What the loop of `parseInt` has served of `[s, e)` before a round. -/
structure ServeInv (cb : IntcpTransCB F nameLen) (s e : UInt32) (st : Serving F nameLen) :
    Prop where
  same : SameView cb st.cb
  from_start : s ≤ st.segStart
  sentEnd : st.sentEnd = imin e st.segStart
  before : ∀ o, s ≤ o → o < st.sentEnd → Resident cb o

/-- What it leaves: `sentEnd` is the first byte of the interest that is not cached. -/
structure Served (cb : IntcpTransCB F nameLen) (s e : UInt32) (st : Serving F nameLen) :
    Prop where
  same : SameView cb st.cb
  from_start : s ≤ st.sentEnd
  within : st.sentEnd ≤ e
  before : ∀ o, s ≤ o → o < st.sentEnd → Resident cb o
  gap : st.sentEnd < e → ¬ Resident cb st.sentEnd

/-- The bytes up to `sentEnd` after a fetch from `segStart`. -/
lemma ServeInv.extend {cb : IntcpTransCB F nameLen} {s e : UInt32} {st : Serving F nameLen}
    (inv : ServeInv cb s e st) (more : st.segStart < e) {n : UInt32}
    (nowrap : st.segStart.toNat + n.toNat < 2 ^ 32)
    (fetched : ∀ o, st.segStart ≤ o → o.toNat < st.segStart.toNat + n.toNat → Resident cb o) :
    ∀ o, s ≤ o → o < st.segStart + n → Resident cb o := by
  intro o hs ho
  have hsent := congrArg UInt32.toNat inv.sentEnd
  rw [toNat_imin] at hsent
  rw [UInt32.lt_iff_toNat_lt, toNat_add_small nowrap] at ho
  rw [UInt32.lt_iff_toNat_lt] at more
  by_cases hseg : st.segStart ≤ o
  · exact fetched o hseg ho
  · refine inv.before o hs ?_
    rw [UInt32.le_iff_toNat_le] at hseg
    rw [UInt32.lt_iff_toNat_lt]
    omega

/-- The round starts at the first byte that was not served. -/
lemma ServeInv.reached {cb : IntcpTransCB F nameLen} {s e : UInt32} {st : Serving F nameLen}
    (inv : ServeInv cb s e st) (more : st.segStart < e) : st.sentEnd = st.segStart := by
  rw [UInt32.lt_iff_toNat_lt] at more
  rw [inv.sentEnd, ← UInt32.toNat_inj, toNat_imin]
  omega

lemma ServeInv.done {cb : IntcpTransCB F nameLen} {s e : UInt32} {st : Serving F nameLen}
    (inv : ServeInv cb s e st) (proper : s < e) (done : ¬ st.segStart < e) :
    Served cb s e st := by
  have hdone : st.sentEnd = e := by
    rw [UInt32.lt_iff_toNat_lt] at done
    rw [inv.sentEnd, ← UInt32.toNat_inj, toNat_imin]
    omega
  refine ⟨inv.same, ?_, ?_, inv.before, fun h => ?_⟩
  · exact hdone ▸ UInt32.le_of_lt proper
  · exact hdone ▸ UInt32.le_refl _
  · rw [hdone] at h
    exact absurd h (UInt32.lt_irrefl e)

/-- A round whose end does not wrap serves the longest cached prefix of its part. -/
lemma servePass_nowrap {cb : IntcpTransCB F nameLen} (free : TopFree cb.cache cb.nameChars)
    {s e : UInt32} {st : Serving F nameLen} (inv : ServeInv cb s e st) (more : st.segStart < e)
    (nowrap : st.segStart.toNat + 1449 < 2 ^ 32) :
    match servePass P e st with
    | .leave st' => Served cb s e st'
    | .again st' => ServeInv cb s e st' ∧ st.segStart.toNat + 1449 = st'.segStart.toNat := by
  have hfrom := UInt32.le_iff_toNat_le.mp inv.from_start
  have hmore := UInt32.lt_iff_toNat_lt.mp more
  have hend := e.toNat_lt
  have hnext := toNat_nextPart nowrap
  have hstop : (imin e (st.segStart + intcpMss)).toNat =
      min e.toNat (st.segStart.toNat + 1449) := toNat_partEnd nowrap
  have hround := lt_partEnd nowrap more
  have hsize := toNat_partLen nowrap more
  have fetched := fetchData_fetched inv.same free hround
  simp only [servePass, if_pos more]
  generalize fetchData st.cb st.segStart (imin e (st.segStart + intcpMss)) = got at fetched ⊢
  have hgot := fetched.within
  have hsum : (st.segStart + got.1).toNat = st.segStart.toNat + got.1.toNat :=
    toNat_add_small (by omega)
  have hbefore := inv.extend more (by omega) fetched.before
  have hfrom' : s ≤ st.segStart + got.1 := by
    rw [UInt32.le_iff_toNat_le, hsum]
    omega
  have hwithin : st.segStart + got.1 ≤ e := by
    rw [UInt32.le_iff_toNat_le, hsum]
    omega
  have hpart : got.1.toNat < min e.toNat (st.segStart.toNat + 1449) - st.segStart.toNat →
      ¬ Resident cb (st.segStart + got.1) := by
    intro hshort
    refine fetched.gap _ hsum ?_
    rw [UInt32.lt_iff_toNat_lt, hsum, hstop]
    omega
  by_cases hnone : got.1 = 0
  · simp only [if_pos hnone]
    refine ⟨fetched.same, hfrom', hwithin, hbefore, fun _ => hpart ?_⟩
    rw [hnone, UInt32.toNat_zero]
    omega
  · simp only [if_neg hnone]
    by_cases hshort : got.1 < imin e (st.segStart + intcpMss) - st.segStart
    · simp only [if_pos hshort]
      rw [UInt32.lt_iff_toNat_lt, hsize] at hshort
      exact ⟨fetched.same.send _ _ _, hfrom', hwithin, hbefore, fun _ => hpart hshort⟩
    · simp only [if_neg hshort]
      rw [UInt32.lt_iff_toNat_lt, hsize] at hshort
      refine ⟨⟨fetched.same.send _ _ _, ?_, ?_, hbefore⟩, hnext.symm⟩
      · rw [UInt32.le_iff_toNat_le, hnext]
        omega
      · rw [← UInt32.toNat_inj, hsum, hstop]
        omega

lemma servePass_cases {cb : IntcpTransCB F nameLen} (free : TopFree cb.cache cb.nameChars)
    {s e : UInt32} (proper : s < e) {st : Serving F nameLen} (inv : ServeInv cb s e st) :
    match servePass P e st with
    | .leave st' => Served cb s e st'
    | .again st' => ServeInv cb s e st' ∧ st.segStart.toNat + 1449 = st'.segStart.toNat := by
  by_cases more : st.segStart < e
  · by_cases wraps : 2 ^ 32 ≤ st.segStart.toNat + 1449
    · obtain ⟨hnone, hsame⟩ := fetchData_wrapped st.cb e wraps
      simp only [servePass, if_pos more, hnone, if_true, hsame, UInt32.add_zero]
      refine ⟨inv.same, inv.from_start, UInt32.le_of_lt more, ?_, fun _ => ?_⟩
      · exact inv.reached more ▸ inv.before
      · exact not_resident_top free (Nat.le_trans (by omega) (Nat.sub_le_of_le_add wraps))
    · exact servePass_nowrap free inv more (Nat.not_le.mp wraps)
  · simp only [servePass, if_neg more]
    exact inv.done proper more

theorem serve_served {cb : IntcpTransCB F nameLen} (wf : WellFormed cb.cache)
    (free : TopFree cb.cache cb.nameChars) (role : cb.nodeRole = .responder) {s e : UInt32}
    (proper : s < e) : Served cb s e (serve P cb s e) := by
  have start : ServeInv cb s e ⟨cb, s, s⟩ := by
    refine ⟨⟨rfl, rfl, rfl, rfl, rfl, wf⟩, UInt32.le_refl s, ?_, ?_⟩
    · rw [UInt32.lt_iff_toNat_lt] at proper
      rw [← UInt32.toNat_inj, toNat_imin]
      simp only
      omega
    · intro o hs ho
      exact absurd (UInt32.lt_of_le_of_lt hs ho) (UInt32.lt_irrefl s)
  have hresponder : cb.nodeRole ≠ .requester := by
    rw [role]
    decide
  exact serve_total (ServeInv cb s e) (Served cb s e) hresponder
    (fun st inv => servePass_cases free proper inv) start

/-- The responder between two calls. -/
structure Waiting (cb : IntcpTransCB F nameLen) : Prop where
  role : cb.nodeRole = .responder
  live : cb.state ≠ -1
  wellFormed : WellFormed cb.cache
  free : TopFree cb.cache cb.nameChars
  proper : ∀ p ∈ cb.pendingInts, p.startByte < p.endByte

/-- What `parseInt` adds to `pendingInts`. -/
def parked (P : Platform F) (cb : IntcpTransCB F nameLen) (s e : UInt32) : List ByteRange :=
  if (serve P cb s e).sentEnd < e then
    [⟨(serve P cb s e).sentEnd, e, getMillisec P (serve P cb s e).cb⟩]
  else []

lemma parseInt_parked {cb : IntcpTransCB F nameLen} (h : Waiting cb) {s e : UInt32}
    (proper : s < e) :
    SameView cb { parseInt P cb s e with pendingInts := cb.pendingInts } ∧
      (parseInt P cb s e).pendingInts = cb.pendingInts ++ parked P cb s e := by
  have served := serve_served (P := P) h.wellFormed h.free h.role proper
  have hsame := served.same
  have hrole := hsame.role.trans h.role
  rw [parseInt, if_neg (UInt32.not_le.mpr proper), parked]
  simp only
  split
  · simp only [hrole]
    refine ⟨⟨hsame.dataMap, hsame.name, rfl, ?_, hsame.state, hsame.wellFormed⟩, ?_⟩
    · exact hrole.trans h.role.symm
    · rw [← hsame.pending]
      rfl
  · refine ⟨⟨hsame.dataMap, hsame.name, rfl, hsame.role, hsame.state, hsame.wellFormed⟩, ?_⟩
    rw [List.append_nil, hsame.pending]

/-- The cached bytes behind the served front are those that an interest strands. -/
lemma answerable_iff_gap {cb : IntcpTransCB F nameLen} {s e : UInt32} {st : Serving F nameLen}
    (served : Served cb s e st) :
    (∀ o, st.sentEnd ≤ o → o < e → ¬ Resident cb o) ↔ Answerable cb (.parseInt s e) := by
  constructor
  · intro clear o o' hs ho he hres
    have hfront : o < st.sentEnd := by
      by_contra hbehind
      exact clear o (UInt32.not_lt.mp hbehind) he hres
    exact served.before o' hs (UInt32.lt_trans ho hfront)
  · intro answerable o hsent he hres
    by_cases hfirst : o = st.sentEnd
    · subst o
      exact served.gap he hres
    · have hbehind : st.sentEnd < o := UInt32.lt_of_le_of_ne hsent (Ne.symm hfirst)
      exact served.gap (UInt32.lt_trans hbehind he)
        (answerable o _ served.from_start hbehind he hres)

lemma parseInt_waiting {cb : IntcpTransCB F nameLen} (h : Waiting cb) {s e : UInt32}
    (proper : s < e) : Waiting (parseInt P cb s e) ∧
      (NeverStranded cb →
        (NeverStranded (parseInt P cb s e) ↔ Answerable cb (.parseInt s e))) := by
  have served := serve_served (P := P) h.wellFormed h.free h.role proper
  obtain ⟨hsame, hpending⟩ := parseInt_parked (P := P) h proper
  have hresident : ∀ o, Resident (parseInt P cb s e) o ↔ Resident cb o := hsame.resident
  constructor
  · refine ⟨hsame.role.trans h.role, ?_, hsame.wellFormed, hsame.topFree h.free, ?_⟩
    · exact fun dead => h.live (hsame.state.symm.trans dead)
    · intro p hp
      rw [hpending, List.mem_append, parked] at hp
      rcases hp with hold | hnew
      · exact h.proper p hold
      · split at hnew
        · rename_i hrest
          rw [List.mem_singleton.mp hnew]
          exact hrest
        · cases hnew
  · intro clear
    rw [← answerable_iff_gap served]
    constructor
    · intro hclear o hsent he
      have hrest := UInt32.lt_of_le_of_lt hsent he
      rw [← hresident]
      refine hclear ⟨(serve P cb s e).sentEnd, e, getMillisec P (serve P cb s e).cb⟩ ?_ o ⟨hsent, he⟩
      rw [hpending, parked, if_pos hrest]
      exact List.mem_append_right _ List.mem_cons_self
    · intro hgap p hp o hwaits
      rw [hresident]
      rw [hpending, List.mem_append, parked] at hp
      rcases hp with hold | hnew
      · exact clear p hold o hwaits
      · split at hnew
        · rw [List.mem_singleton.mp hnew] at hwaits
          exact hgap o hwaits.1 hwaits.2
        · cases hnew

/-- The signed test sees a common byte within 2^31. -/
lemma meetsNew_iff {p : ByteRange} (proper : p.startByte < p.endByte) {s e : UInt32}
    (data : s < e) : MeetsNew p s e ↔ (p.startByte < e ∧ s < p.endByte) ∧
      e.toNat - p.startByte.toNat ≤ 2 ^ 31 ∧ p.endByte.toNat - s.toNat < 2 ^ 31 := by
  have hp := p.endByte.toNat_lt
  have he := e.toNat_lt
  rw [UInt32.lt_iff_toNat_lt] at proper data
  rw [MeetsNew, itimediff_eq, itimediff_eq, UInt32.lt_iff_toNat_lt, UInt32.lt_iff_toNat_lt,
    UInt32.toNat_sub, UInt32.toNat_sub]
  split <;> split <;> omega

/-- What `notifyNewData` leaves of a pending range. -/
def left (s e : UInt32) (p : ByteRange) : List ByteRange :=
  if MeetsNew p s e then remainder p (imax p.startByte s) (imin p.endByte e) else [p]

lemma releaseInts_pending (buffer : Buffer) (s e : UInt32) (cb : IntcpTransCB F nameLen)
    (pending : List ByteRange) :
    (releaseInts P buffer s e cb pending).2 = pending.flatMap (left s e) := by
  induction pending generalizing cb with
  | nil => rfl
  | cons p rest ih =>
    rw [releaseInts, List.flatMap_cons, left]
    split
    · simp only [ih]
    · simp only [ih, List.singleton_append]

/-- The pieces that remain hold the bytes of the range that did not arrive. -/
lemma mem_remainder {p q : ByteRange} (proper : p.startByte < p.endByte) {s e : UInt32}
    (meets : p.startByte < e ∧ s < p.endByte)
    (h : q ∈ remainder p (imax p.startByte s) (imin p.endByte e)) :
    q.startByte < q.endByte ∧ ∀ o, Waits q o → Waits p o ∧ ¬ (s ≤ o ∧ o < e) := by
  have hstart := UInt32.lt_iff_toNat_lt.mp meets.1
  have hend := UInt32.lt_iff_toNat_lt.mp meets.2
  rw [UInt32.lt_iff_toNat_lt] at proper
  have hmax := toNat_imax p.startByte s
  have hmin := toNat_imin p.endByte e
  simp only [Waits, UInt32.le_iff_toNat_le, UInt32.lt_iff_toNat_lt]
  rw [remainder] at h
  split at h
  · cases h
  · rename_i hboth
    split at h
    · rename_i hwhole
      cases List.mem_singleton.mp h
      simp only [← UInt32.toNat_inj] at hboth hwhole ⊢
      exact ⟨by omega, fun o ho => by omega⟩
    · rename_i hpart
      simp only [← UInt32.toNat_inj] at hpart
      split at h
      · rename_i hinner
        simp only [ne_eq, ← UInt32.toNat_inj] at hinner
        rcases List.mem_cons.mp h with rfl | hlast
        · exact ⟨by simp only; omega, fun o ho => by simp only at ho; omega⟩
        · cases List.mem_singleton.mp hlast
          exact ⟨by simp only; omega, fun o ho => by simp only at ho; omega⟩
      · rename_i hfront
        simp only [ne_eq, ← UInt32.toNat_inj] at hfront
        cases List.mem_singleton.mp h
        exact ⟨by simp only; omega, fun o ho => by simp only at ho; omega⟩

/-- The view after an insert that fits: the new bytes, and the old ones outside. -/
structure Inserted (cb : IntcpTransCB F nameLen) (s e : UInt32) (cb' : IntcpTransCB F nameLen) :
    Prop where
  role : cb'.nodeRole = cb.nodeRole
  state : cb'.state = cb.state
  wellFormed : WellFormed cb'.cache
  free : TopFree cb'.cache cb'.nameChars
  pending : cb'.pendingInts = cb.pendingInts.flatMap (left s e)
  fresh : ∀ o, s ≤ o → o < e → Resident cb' o
  old : ∀ o, ¬ (s ≤ o ∧ o < e) → Resident cb' o → Resident cb o

lemma insertData_inserted {cb : IntcpTransCB F nameLen} (h : Waiting cb) (buffer : Buffer)
    {s e : UInt32} (proper : Proper s e) (fits : Fits cb (.insertData buffer s e)) :
    ∃ cb', insertData P cb buffer s e = some cb' ∧ Inserted cb s e cb' := by
  obtain ⟨cache, hinsert, written⟩ := insert_written h.wellFormed proper.1 proper.2 buffer fits.1
  have hstart : SameView { cb with cache := cache } { cb with cache := cache } :=
    ⟨rfl, rfl, rfl, rfl, rfl, written.wellFormed⟩
  have hsame := releaseInts_rule (P := P) (SameView { cb with cache := cache })
    (fun cb' buffer start stop same => same.enqueueAll (sentSegs P buffer start stop))
    buffer s e hstart cb.pendingInts
  have hresident : ∀ o, Resident (notifyNewData P { cb with cache := cache } buffer s e) o ↔
      Resident { cb with cache := cache } o := hsame.resident
  rw [insertData, hinsert, Option.map_some]
  refine ⟨_, rfl, hsame.role, hsame.state, hsame.wellFormed, ?_, ?_, ?_, ?_⟩
  · exact hsame.topFree (written.topFree h.wellFormed h.free proper.1 proper.2)
  · simp only [notifyNewData, releaseInts_pending]
  · intro o hs he
    have hkept : (⟨nameSeqToKey cb.nameChars (firstBlock o)⟩ : Node) ∈ cache.lruList := by
      rw [written.order]
      exact fits.2 _ (List.mem_append_right _ (mem_visited proper.2 hs he))
    rw [hresident, resident_iff]
    exact ⟨_, written.fresh o hs he (firstBlock_mono hs) hkept⟩
  · intro o hout hres
    rw [hresident, resident_iff] at hres
    obtain ⟨v, hv⟩ := hres
    have hview := written.sound_range hv
    rw [if_neg fun hin => hout hin.2] at hview
    exact resident_iff.mpr ⟨v, hview⟩

/-- A waiting range that meets new data out of reach is left as it is, with cached bytes. -/
lemma Inserted.stranded {cb cb' : IntcpTransCB F nameLen} {s e : UInt32}
    (inserted : Inserted cb s e cb') (proper : s < e) {p : ByteRange} (hp : p ∈ cb.pendingInts)
    (nonempty : p.startByte < p.endByte) (meets : p.startByte < e ∧ s < p.endByte)
    (unseen : ¬ MeetsNew p s e) : ¬ NeverStranded cb' := by
  intro clear
  have hstays : p ∈ cb'.pendingInts := by
    rw [inserted.pending, List.mem_flatMap]
    exact ⟨p, hp, by rw [left, if_neg unseen]; exact List.mem_cons_self⟩
  have hfirst : Waits p (imax p.startByte s) ∧ s ≤ imax p.startByte s ∧ imax p.startByte s < e := by
    simp only [Waits, UInt32.le_iff_toNat_le, UInt32.lt_iff_toNat_lt, toNat_imax] at *
    omega
  exact clear p hstays _ hfirst.1 (inserted.fresh _ hfirst.2.1 hfirst.2.2)

lemma Inserted.waiting {cb cb' : IntcpTransCB F nameLen} (h : Waiting cb) {s e : UInt32}
    (inserted : Inserted cb s e cb') (proper : s < e) : Waiting cb' := by
  refine ⟨inserted.role.trans h.role, ?_, inserted.wellFormed, inserted.free, ?_⟩
  · exact fun dead => h.live (inserted.state.symm.trans dead)
  · intro q hq
    rw [inserted.pending, List.mem_flatMap] at hq
    obtain ⟨p, hp, hleft⟩ := hq
    have hproper := h.proper p hp
    rw [left] at hleft
    split at hleft
    · rename_i hmeets
      exact (mem_remainder hproper ((meetsNew_iff hproper proper).mp hmeets).1 hleft).1
    · rw [List.mem_singleton.mp hleft]
      exact hproper

lemma Inserted.neverStranded_iff {cb cb' : IntcpTransCB F nameLen} (h : Waiting cb)
    {s e : UInt32} (inserted : Inserted cb s e cb') (proper : s < e) (clear : NeverStranded cb)
    (buffer : Buffer) : NeverStranded cb' ↔ Answerable cb (.insertData buffer s e) := by
  constructor
  · intro hclear p hp hstart hend
    by_contra hfar
    refine inserted.stranded proper hp (h.proper p hp) ⟨hstart, hend⟩ ?_ hclear
    rw [meetsNew_iff (h.proper p hp) proper]
    exact fun hmeets => hfar hmeets.2
  · intro answerable q hq o hwaits hres
    rw [inserted.pending, List.mem_flatMap] at hq
    obtain ⟨p, hp, hleft⟩ := hq
    have hproper := h.proper p hp
    rw [left] at hleft
    split at hleft
    · rename_i hmeets
      obtain ⟨hold, hout⟩ :=
        (mem_remainder hproper ((meetsNew_iff hproper proper).mp hmeets).1 hleft).2 o hwaits
      exact clear p hp o hold (inserted.old o hout hres)
    · rename_i hmeets
      rw [List.mem_singleton.mp hleft] at hwaits
      have hout : ¬ (s ≤ o ∧ o < e) := by
        rintro ⟨hs, he⟩
        have hstart := UInt32.lt_of_le_of_lt hwaits.1 he
        have hend := UInt32.lt_of_le_of_lt hs hwaits.2
        exact hmeets ((meetsNew_iff hproper proper).mpr
          ⟨⟨hstart, hend⟩, answerable p hp hstart hend⟩)
      exact clear p hp o hwaits (inserted.old o hout hres)

/-- What one call does: it returns, and it strands a byte exactly if it is not answerable. -/
lemma step_waiting {cb : IntcpTransCB F nameLen} (h : Waiting cb) {op : Op nameLen}
    (fed : Fed op) (fits : Fits cb op) :
    ∃ cb', op.step P cb = some cb' ∧ Waiting cb' ∧
      (NeverStranded cb → (NeverStranded cb' ↔ Answerable cb op)) := by
  rw [Op.step, if_neg h.live]
  cases op with
  | insertData buffer s e =>
    obtain ⟨cb', hinsert, inserted⟩ := insertData_inserted (P := P) h buffer fed fits
    exact ⟨cb', hinsert, inserted.waiting h fed.1,
      fun clear => inserted.neverStranded_iff h fed.1 clear buffer⟩
  | parseInt s e => exact ⟨_, rfl, parseInt_waiting h fed⟩
  | input | request | notifyNewData | sendData | sendDataHeader | parseData | recv | flush
  | update | cacheInsert | cacheRead => exact absurd fed id

lemma waiting_create (name : Vector UInt8 nameLen) (heap : Nat → Buffer) :
    Waiting (IntcpTransCB.create P .responder name (Cache.fresh heap)) := by
  refine ⟨rfl, ?_, fresh_wellFormed heap, rfl, ?_⟩
  · have hstate : (0 : Int32) ≠ -1 := by decide
    exact hstate
  · intro p hp
    cases hp

lemma run_waiting {cb : IntcpTransCB F nameLen} (h : Waiting cb) (clear : NeverStranded cb)
    (ops : List (Op nameLen)) (fed : ∀ op ∈ ops, Fed op)
    (fits : Along (Op.step P) Fits cb ops) :
    (∀ k, ∃ cb', run (Op.step P) cb (ops.take k) = some cb' ∧ NeverStranded cb') ↔
      Along (Op.step P) Answerable cb ops := by
  induction ops generalizing cb with
  | nil => exact ⟨fun _ => trivial, fun _ k => ⟨cb, by rw [List.take_nil, run], clear⟩⟩
  | cons op ops ih =>
    obtain ⟨t, hstep, hwaiting, hiff⟩ := step_waiting (P := P) h (fed op List.mem_cons_self) fits.1
    have hrest := fun hclear : NeverStranded t => ih hwaiting hclear
      (fun o ho => fed o (List.mem_cons_of_mem _ ho)) (fits.2 t hstep)
    have hrun : ∀ k, run (Op.step P) cb ((op :: ops).take (k + 1)) =
        run (Op.step P) t (ops.take k) := by
      intro k
      rw [List.take_succ_cons, run, hstep, Option.bind_some]
    constructor
    · intro hall
      obtain ⟨t', ht', hclear⟩ := hall 1
      rw [hrun, List.take_zero, run] at ht'
      cases ht'
      refine ⟨(hiff clear).mp hclear, fun t' ht' => ?_⟩
      rw [hstep] at ht'
      cases ht'
      refine (hrest hclear).mp fun k => ?_
      rw [← hrun]
      exact hall (k + 1)
    · rintro ⟨hop, hlater⟩ k
      cases k with
      | zero => exact ⟨cb, rfl, clear⟩
      | succ k =>
        rw [hrun]
        exact (hrest ((hiff clear).mpr hop)).mpr (hlater t hstep) k

/-- A run of inserts and interests on a responder strands no byte, at any point between
its calls, if and only if every call is answerable in the state it meets. -/
theorem run_neverStranded (P : Platform F) (name : Vector UInt8 nameLen) (heap : Nat → Buffer)
    (ops : List (Op nameLen)) (fed : ∀ op ∈ ops, Fed op)
    (fits : Along (Op.step P) Fits (.create P .responder name (Cache.fresh heap)) ops) :
    (∀ k, ∃ cb, run (Op.step P) (.create P .responder name (Cache.fresh heap)) (ops.take k) =
        some cb ∧ NeverStranded cb) ↔
      Along (Op.step P) Answerable (.create P .responder name (Cache.fresh heap)) ops :=
  run_waiting (waiting_create name heap) (by intro p hp; cases hp) ops fed fits

/-- An interest that waits for its data, which comes with more than was asked for. -/
def patientOps : List (Op 1) := [.parseInt 0 100, .insertData (fun _ => 1) 0 200]

lemma patient_answerable : Along (Op.step freeClock) Answerable
    (.create freeClock .responder #v[110] (Cache.fresh fun _ _ => 0)) patientOps := by
  refine ⟨?_, fun t ht => ⟨?_, fun _ _ => trivial⟩⟩
  · rintro o o' _ _ _ ⟨block, hblock, _⟩
    cases hblock
  · cases ht
    rw [Answerable]
    decide +kernel

theorem run_neverStranded_patient :
    ∃ cb, run (Op.step freeClock) (.create freeClock .responder #v[110] (Cache.fresh fun _ _ => 0))
      patientOps = some cb ∧ NeverStranded cb :=
  (run_neverStranded freeClock _ _ patientOps (by decide) (by decide +kernel)).mpr
    patient_answerable 2

/-- The data of the second half of an interest is there before the interest. -/
def earlyOps : List (Op 1) := [.insertData (fun _ => 1) 100 200, .parseInt 0 200]

lemma early_pending :
    (run (Op.step freeClock) (.create freeClock .responder #v[110] (Cache.fresh fun _ _ => 0))
      earlyOps).map (fun cb => decide (∃ p ∈ cb.pendingInts, Waits p 100 ∧ Resident cb 100)) =
      some true := by
  decide +kernel

theorem early_stranded :
    (∀ op ∈ earlyOps, Fed op) ∧
    Along (Op.step freeClock) Fits
      (.create freeClock .responder #v[110] (Cache.fresh fun _ _ => 0)) earlyOps ∧
    ∃ cb, run (Op.step freeClock)
      (.create freeClock .responder #v[110] (Cache.fresh fun _ _ => 0)) earlyOps = some cb ∧
      ¬ NeverStranded cb := by
  refine ⟨by decide, by decide +kernel, ?_⟩
  obtain ⟨cb, hrun, hstranded⟩ := Option.map_eq_some_iff.mp early_pending
  obtain ⟨p, hp, hwaits, hresident⟩ := of_decide_eq_true hstranded
  exact ⟨cb, hrun, fun clear => clear p hp 100 hwaits hresident⟩

end PendingInterests
