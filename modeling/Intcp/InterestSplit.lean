import Intcp.PrefixReads
import Intcp.SentRanges

/-!
# What `parseInt` does with an interest

Responders and midnodes send the longest cached prefix of an interest from the
cache and hand the rest over as one range.
-/

namespace InterestSplit

open FuelledLoop StepRuns Words BlockCache SlotTables CacheContents LastWrite PrefixReads
  TransControl DataPlane InterestPlane CallRules SentRanges

universe u
variable {F : Type u} {nameLen : Nat} {P : Platform F}

/-- Where the rest of an interest goes: to `pendingInts` of a responder, and to `request`
in a midnode. -/
def handOver (P : Platform F) (cb : IntcpTransCB F nameLen) (rest stop : UInt32) :
    IntcpTransCB F nameLen :=
  if rest < stop then
    match cb.nodeRole with
    | .responder => { tick cb with
        pendingInts := cb.pendingInts ++ [⟨rest, stop, getMillisec P cb⟩] }
    | .requester => outputInt P cb rest stop
    | .midnode => (request P cb rest stop).2
  else cb

/-- The bytes that the cache holds under the name of the session. -/
def Holds (cb : IntcpTransCB F nameLen) : UInt32 → UInt8 → Prop := Cached cb.cache cb.nameChars

/-- `[s, e)` is split at `s + k`, the end of its longest cached prefix: chunks of cached bytes
go to `sndQueue` up to there, and from there on it is handed over. Of the cache only the order
of use changes. -/
def Splits (P : Platform F) (cb : IntcpTransCB F nameLen) (s e : UInt32) : Prop :=
  ∃ (k : Nat) (middle : UInt32) (segs : List IntcpSeg) (cache : Cache nameLen),
    IsGreatest {k | Prefix cb.cache cb.nameChars s e k} k ∧
    middle.toNat = s.toNat + k ∧
    Covers (Holds cb) s segs middle ∧
    cache.dataMap = cb.cache.dataMap ∧
    parseInt P cb s e = handOver P (enqueueAll { cb with cache := cache } segs) middle e

/-- What the loop has put into `sndQueue` of an interest from `s` on. -/
structure Sent (cb : IntcpTransCB F nameLen) (s : UInt32) (segs : List IntcpSeg)
    (st : Serving F nameLen) : Prop where
  queued : st.cb = enqueueAll { cb with cache := st.cb.cache } segs
  dataMap : st.cb.cache.dataMap = cb.cache.dataMap
  wellFormed : WellFormed st.cb.cache
  covers : Covers (Holds cb) s segs st.sentEnd

/-- Before a round. -/
structure Going (cb : IntcpTransCB F nameLen) (s e : UInt32) (st : Serving F nameLen) : Prop where
  sent : ∃ segs, Sent cb s segs st
  sentEnd : st.sentEnd = imin e st.segStart

/-- Behind the loop: the byte at `sentEnd` is not cached. -/
structure Done (cb : IntcpTransCB F nameLen) (s e : UInt32) (st : Serving F nameLen) : Prop where
  sent : ∃ segs, Sent cb s segs st
  within : st.sentEnd ≤ e
  gap : st.sentEnd < e → ∀ v, ¬ Holds cb st.sentEnd v

lemma cached_congr {c c' : Cache nameLen} (same : c'.dataMap = c.dataMap)
    (name : Vector UInt8 nameLen) (o : UInt32) (v : UInt8) :
    Cached c' name o v ↔ Cached c name o v := by
  rw [Cached, Cached, same]

/-- A fetch from where the loop has come to. -/
lemma Sent.fetch {cb : IntcpTransCB F nameLen} {s e : UInt32} {segs : List IntcpSeg}
    {st : Serving F nameLen} (sent : Sent cb s segs st) (proper : Proper st.sentEnd e) :
    ∃ (n : UInt32) (buf : Buffer) (cache : Cache nameLen),
      fetchData st.cb st.sentEnd e = (n, buf, { st.cb with cache := cache }) ∧
      cache.dataMap = cb.cache.dataMap ∧ WellFormed cache ∧
      n.toNat ≤ e.toNat - st.sentEnd.toNat ∧
      (∀ o, st.sentEnd ≤ o → o.toNat < st.sentEnd.toNat + n.toNat →
        Holds cb o (buf (o - st.sentEnd).toNat)) ∧
      (∀ o, o.toNat = st.sentEnd.toNat + n.toNat → o < e → ∀ v, ¬ Holds cb o v) := by
  have delivers := read_delivers sent.wellFormed st.cb.nameChars proper.1 (.inl proper.2) fun _ => 0
  have hend := e.toNat_lt
  have hwithin := delivers.within
  have hname : st.cb.nameChars = cb.nameChars := by
    rw [sent.queued]
    rfl
  have hholds : ∀ o v, Cached st.cb.cache st.cb.nameChars o v ↔ Holds cb o v := by
    intro o v
    rw [hname]
    exact cached_congr sent.dataMap cb.nameChars o v
  have hsmall : (BlockCache.read st.cb.cache st.cb.nameChars st.sentEnd e fun _ => 0).readlen <
      2 ^ 32 := by omega
  have hlen := UInt32.toNat_ofNat_of_lt' hsmall
  refine ⟨_, _, _, rfl, delivers.same.trans sent.dataMap, delivers.wellFormed, ?_, ?_, ?_⟩
  · rw [hlen]
    exact hwithin
  · intro o ho hlt
    rw [hlen] at hlt
    exact (hholds o _).mp (delivers.bytes o ho hlt)
  · intro o ho hlt v hv
    rw [hlen] at ho
    exact delivers.longest o ho hlt v ((hholds o v).mpr hv)

/-- What is fetched goes out behind what was sent before. -/
lemma Sent.send {cb : IntcpTransCB F nameLen} {s : UInt32} {segs : List IntcpSeg}
    {st : Serving F nameLen} (sent : Sent cb s segs st) {n : UInt32} {buf : Buffer}
    {cache : Cache nameLen} (same : cache.dataMap = cb.cache.dataMap) (wf : WellFormed cache)
    (pos : n ≠ 0) (short : n.toNat ≤ 1449) (nowrap : st.sentEnd.toNat + n.toNat < 2 ^ 32)
    (holds : ∀ o, st.sentEnd ≤ o → o.toNat < st.sentEnd.toNat + n.toNat →
      Holds cb o (buf (o - st.sentEnd).toNat)) (segStart : UInt32) :
    Sent cb s (segs ++ sentSegs P buf st.sentEnd (st.sentEnd + n))
      ⟨(sendData P { st.cb with cache := cache } buf st.sentEnd (st.sentEnd + n)).2, segStart,
        st.sentEnd + n⟩ := by
  have hend : (st.sentEnd + n).toNat = st.sentEnd.toNat + n.toNat := toNat_add_small nowrap
  have hpos : 0 < n.toNat := Nat.pos_of_ne_zero fun h => pos (UInt32.toNat_inj.mp h)
  have hbefore : st.sentEnd < st.sentEnd + n := by
    rw [UInt32.lt_iff_toNat_lt, hend]
    omega
  have hcovers := sentSegs_covers (P := P) buf hbefore (by omega)
  rw [sendData_eq]
  refine ⟨?_, same, wf, sent.covers.append ?_⟩
  · rw [sent.queued]
    simp only [enqueueAll, queueBytes_append, List.append_assoc, Int32.add_assoc]
  · apply hcovers.mono
    intro o v ho hlt hv
    rw [UInt32.lt_iff_toNat_lt, hend] at hlt
    rw [hv]
    exact holds o ho hlt

/-- The step lemma: a round goes on behind a whole part, or leaves at the first gap. -/
lemma servePass_splits {cb : IntcpTransCB F nameLen} {s e : UInt32} (top : e.toNat ≤ 2 ^ 32 - 4096)
    {st : Serving F nameLen} (going : Going cb s e st) :
    match servePass P e st with
    | .leave st' => Done cb s e st'
    | .again st' => Going cb s e st' ∧ st.segStart.toNat + 1449 = st'.segStart.toNat := by
  obtain ⟨segs, sent⟩ := going.sent
  have hsentEnd := congrArg UInt32.toNat going.sentEnd
  rw [toNat_imin] at hsentEnd
  by_cases more : st.segStart < e
  · have hmore := UInt32.lt_iff_toNat_lt.mp more
    have hhere : st.sentEnd = st.segStart := UInt32.toNat_inj.mp (by omega)
    have hnowrap : st.segStart.toNat + 1449 < 2 ^ 32 := by omega
    have hnext := toNat_nextPart hnowrap
    have hstop : (imin e (st.segStart + intcpMss)).toNat =
        min e.toNat (st.segStart.toNat + 1449) := toNat_partEnd hnowrap
    have hproper : Proper st.sentEnd (imin e (st.segStart + intcpMss)) := by
      rw [Proper, UInt32.lt_iff_toNat_lt, hstop, hhere]
      omega
    have hsize := toNat_partLen hnowrap more
    obtain ⟨n, buf, cache, hfetch, hmap, hwf, hwithin, hholds, hgap⟩ := sent.fetch hproper
    rw [hhere] at hfetch
    rw [hstop, hhere] at hwithin
    have hend : (st.segStart + n).toNat = st.segStart.toNat + n.toNat := toNat_add_small (by omega)
    have hle : st.segStart + n ≤ e := by
      rw [UInt32.le_iff_toNat_le, hend]
      omega
    have hpart : n.toNat < min e.toNat (st.segStart.toNat + 1449) - st.segStart.toNat →
        ∀ v, ¬ Holds cb (st.segStart + n) v := by
      intro hshort
      apply hgap
      · rw [hend, hhere]
      · rw [UInt32.lt_iff_toNat_lt, hend, hstop]
        omega
    simp only [servePass, if_pos more, hfetch]
    by_cases hnone : n = 0
    · rw [if_pos hnone]
      refine ⟨⟨segs, ?_, hmap, hwf, ?_⟩, hle, fun _ => hpart ?_⟩
      · exact sent.queued ▸ rfl
      · simp only [hnone, UInt32.add_zero]
        exact hhere ▸ sent.covers
      · rw [hnone, UInt32.toNat_zero]
        omega
    · have hsent := sent.send (P := P) hmap hwf hnone (by omega) (by rw [hhere]; omega) hholds
      rw [hhere] at hsent
      rw [if_neg hnone]
      by_cases hshort : n < imin e (st.segStart + intcpMss) - st.segStart
      · rw [if_pos hshort]
        rw [UInt32.lt_iff_toNat_lt, hsize] at hshort
        exact ⟨⟨_, hsent st.segStart⟩, hle, fun _ => hpart hshort⟩
      · rw [if_neg hshort]
        rw [UInt32.lt_iff_toNat_lt, hsize] at hshort
        refine ⟨⟨⟨_, hsent _⟩, ?_⟩, hnext.symm⟩
        rw [← UInt32.toNat_inj, toNat_imin, hnext, hend]
        omega
  · rw [UInt32.lt_iff_toNat_lt] at more
    have hall : st.sentEnd = e := UInt32.toNat_inj.mp (by omega)
    simp only [servePass]
    rw [if_neg (by rwa [UInt32.lt_iff_toNat_lt])]
    refine ⟨⟨segs, sent⟩, UInt32.le_of_eq hall, fun h => ?_⟩
    exact absurd (hall ▸ h) (UInt32.lt_irrefl e)

theorem serve_done {cb : IntcpTransCB F nameLen} (wf : WellFormed cb.cache)
    (role : cb.nodeRole ≠ .requester) {s e : UInt32} (proper : Proper s e) :
    Done cb s e (serve P cb s e) := by
  have start : Going cb s e ⟨cb, s, s⟩ := by
    refine ⟨⟨[], ?_, rfl, wf, rfl⟩, ?_⟩
    · exact (enqueueAll_nil cb).symm
    · have hlt := UInt32.lt_iff_toNat_lt.mp proper.1
      rw [← UInt32.toNat_inj, toNat_imin]
      simp only
      omega
  exact serve_total (Going cb s e) (Done cb s e) role
    (fun st going => servePass_splits proper.2 going) start

/-- `sentEnd` ends the longest cached prefix. -/
lemma Done.longest {cb : IntcpTransCB F nameLen} {s e : UInt32} {st : Serving F nameLen}
    (done : Done cb s e st) {segs : List IntcpSeg} (sent : Sent cb s segs st) :
    IsGreatest {k | Prefix cb.cache cb.nameChars s e k} (st.sentEnd.toNat - s.toNat) := by
  have hfrom := UInt32.le_iff_toNat_le.mp sent.covers.le
  have hwithin := UInt32.le_iff_toNat_le.mp done.within
  constructor
  · refine ⟨by omega, ?_⟩
    intro o hs ho
    apply held_iff_cached.mpr
    apply sent.covers.byte hs
    rw [UInt32.lt_iff_toNat_lt]
    omega
  · rintro k ⟨hk, all⟩
    by_contra hlt
    have hbehind := held_iff_cached.mp (all st.sentEnd sent.covers.le (by omega))
    obtain ⟨v, hv⟩ := hbehind
    refine done.gap ?_ v hv
    rw [UInt32.lt_iff_toNat_lt]
    omega

theorem parseInt_splits {cb : IntcpTransCB F nameLen} (wf : WellFormed cb.cache)
    (role : cb.nodeRole ≠ .requester) {s e : UInt32} (proper : Proper s e) :
    Splits P cb s e := by
  have done := serve_done (P := P) wf role proper
  obtain ⟨segs, sent⟩ := done.sent
  have hfrom := UInt32.le_iff_toNat_le.mp sent.covers.le
  refine ⟨_, _, segs, (serve P cb s e).cb.cache, done.longest sent, ?_, sent.covers, sent.dataMap, ?_⟩
  · omega
  · rw [← sent.queued, parseInt, if_neg (UInt32.not_le.mpr proper.1)]
    rfl

/-- Every interest that reaches a midnode or a responder is split, whatever was inserted into
the cache and read from it. -/
theorem parseInt_splits_reachable (heap : Nat → Buffer) (calls : List (Call nameLen))
    (valid : ∀ call ∈ calls, call.Valid) {cb : IntcpTransCB F nameLen}
    (reached : run Call.step (Cache.fresh heap) calls = some cb.cache)
    (role : cb.nodeRole ≠ .requester) {s e : UInt32} (proper : Proper s e) :
    Splits P cb s e := by
  obtain ⟨c, hrun, represented⟩ := run_represented heap calls valid
  cases hrun.symm.trans reached
  exact parseInt_splits represented.wellFormed role proper

theorem half_cached_splits :
    ∃ cache, run Call.step (Cache.fresh fun _ _ => 0) [.insert #v[110] 0 3000 fun _ => 7] =
        some cache ∧
      Splits freeClock (.create freeClock .midnode #v[110] cache) 0 4000 := by
  have valid : ∀ call ∈ [(.insert #v[110] 0 3000 fun _ => 7 : Call 1)], call.Valid := by decide
  obtain ⟨cache, hrun, _⟩ := run_represented (fun _ _ => 0) _ valid
  have hreached : run Call.step (Cache.fresh fun _ _ => 0) [.insert #v[110] 0 3000 fun _ => 7] =
      some (IntcpTransCB.create freeClock .midnode #v[110] cache).cache := hrun
  exact ⟨cache, hrun, parseInt_splits_reachable _ _ valid hreached nofun (by decide)⟩

end InterestSplit
