import Intcp.PrefixReads

/-!
# The cache drops the least recently used block

`insert` and `read` with a record of the events of the blocks: a block has an
event when it is created, and when a read takes a byte from it. The recency
list is in the order of the last events, so what a new block pushes out is the
block whose last event is the oldest.
-/

namespace RecencyRuns

open FuelledLoop StepRuns Words BlockCache SlotTables LruOrder CacheContents LastWrite PrefixReads

variable {nameLen : Nat}

/-- A cache, and the blocks of its events, latest first. -/
structure Watched (nameLen : Nat) where
  cache : Cache nameLen
  events : List Node

def Watched.fresh (heap : Nat → Buffer) : Watched nameLen where
  cache := Cache.fresh heap
  events := []

def Resident (c : Cache nameLen) (key : Key) : Prop := (c.dataMap key).isSome

instance (c : Cache nameLen) (key : Key) : Decidable (Resident c key) :=
  inferInstanceAs (Decidable (_ = true))

/-- The event of a round of `insert`, if it has created the block. -/
def creation (before after : Cache nameLen) (key : Key) : List Node :=
  if ¬ Resident before key ∧ Resident after key then [⟨key⟩] else []

def watchInsertPass (name : Vector UInt8 nameLen) (dataStart dataEnd : UInt32) (dataBuf : Buffer)
    (st : Watched nameLen × UInt32) : Pass (Watched nameLen × UInt32) (Watched nameLen) :=
  let watch (after : Cache nameLen) : Watched nameLen :=
    ⟨after, creation st.1.cache after (nameSeqToKey name st.2) ++ st.1.events⟩
  match insertPass name dataStart dataEnd dataBuf (st.1.cache, st.2) with
  | .leave c => .leave (watch c)
  | .again (c, blockStart) => .again (watch c, blockStart)

def watchInsert (w : Watched nameLen) (name : Vector UInt8 nameLen) (dataStart dataEnd : UInt32)
    (dataBuf : Buffer) : Option (Watched nameLen) :=
  loop (watchInsertPass name dataStart dataEnd dataBuf) blockBudget (w, firstBlock dataStart)

structure WatchedReading (nameLen : Nat) where
  reading : Reading nameLen
  events : List Node

/-- The event of a round of `read`, if it has returned a byte. -/
def delivery (before after : Reading nameLen) (key : Key) : List Node :=
  if before.readlen < after.readlen then [⟨key⟩] else []

def watchReadPass (name : Vector UInt8 nameLen) (dataStart dataEnd : UInt32)
    (st : WatchedReading nameLen × UInt32) :
    Pass (WatchedReading nameLen × UInt32) (WatchedReading nameLen) :=
  let watch (after : Reading nameLen) : WatchedReading nameLen :=
    ⟨after, delivery st.1.reading after (nameSeqToKey name st.2) ++ st.1.events⟩
  match readPass name dataStart dataEnd (st.1.reading, st.2) with
  | .leave rd => .leave (watch rd)
  | .again (rd, blockStart) => .again (watch rd, blockStart)

def watchRead (w : Watched nameLen) (name : Vector UInt8 nameLen) (dataStart dataEnd : UInt32)
    (dataBuf : Buffer) : WatchedReading nameLen :=
  (loop (watchReadPass name dataStart dataEnd) blockBudget
    (⟨⟨w.cache, 0, dataBuf⟩, w.events⟩, firstBlock dataStart)).getD
    ⟨⟨w.cache, 0, dataBuf⟩, w.events⟩

def watchStep : Call nameLen → Watched nameLen → Option (Watched nameLen)
  | .insert name s e dataBuf, w => watchInsert w name s e dataBuf
  | .read name s e dataBuf, w =>
    let rd := watchRead w name s e dataBuf
    some ⟨rd.reading.cache, rd.events⟩

lemma watchInsert_cache (w : Watched nameLen) (name : Vector UInt8 nameLen) (s e : UInt32)
    (dataBuf : Buffer) :
    (watchInsert w name s e dataBuf).map Watched.cache = insert w.cache name s e dataBuf := by
  refine loop_map (fun st : Watched nameLen × UInt32 => (st.1.cache, st.2)) Watched.cache ?_ _ _
  rintro ⟨w, b⟩
  simp only [watchInsertPass]
  split <;> rename_i hpass <;> rw [hpass] <;> rfl

lemma watchRead_reading (w : Watched nameLen) (name : Vector UInt8 nameLen) (s e : UInt32)
    (dataBuf : Buffer) :
    (watchRead w name s e dataBuf).reading = read w.cache name s e dataBuf := by
  have hpass : ∀ st : WatchedReading nameLen × UInt32,
      (watchReadPass name s e st).map (fun st => (st.1.reading, st.2)) WatchedReading.reading =
        readPass name s e (st.1.reading, st.2) := by
    rintro ⟨rd, b⟩
    simp only [watchReadPass]
    split <;> rename_i hpass <;> rw [hpass] <;> rfl
  have hloop := loop_map (fun st : WatchedReading nameLen × UInt32 => (st.1.reading, st.2))
    WatchedReading.reading hpass blockBudget
    (⟨⟨w.cache, 0, dataBuf⟩, w.events⟩, firstBlock s)
  rw [watchRead, BlockCache.read, ← hloop]
  cases loop (watchReadPass name s e) blockBudget
    (⟨⟨w.cache, 0, dataBuf⟩, w.events⟩, firstBlock s) <;> rfl

/-- Watching changes nothing. -/
lemma watchStep_cache (call : Call nameLen) (w : Watched nameLen) :
    (watchStep call w).map Watched.cache = call.step w.cache := by
  cases call with
  | insert name s e dataBuf => exact watchInsert_cache w name s e dataBuf
  | read name s e dataBuf =>
    simp only [watchStep, Call.step, Option.map_some, watchRead_reading]

structure Kept (w : Watched nameLen) : Prop where
  represented : Represented w.cache
  chronological : Chronological w.events w.cache.lruList

lemma fresh_kept (heap : Nat → Buffer) : Kept (Watched.fresh heap : Watched nameLen) := by
  constructor
  · exact fresh_represented heap
  · refine ⟨fun k hk => ?_, List.Pairwise.nil⟩
    cases hk

/-- Where the events of a round are those of an entry into the recency list. -/
lemma chronological_replaced {c c' : Cache nameLen} (wf : WellFormed c) {key : Key} {block : Block}
    (rep : Replaced c key block c') {events : List Node} (chron : Chronological events c.lruList) :
    Chronological (creation c c' key ++ events) c'.lruList := by
  rw [rep.order]
  by_cases present : (⟨key⟩ : Node) ∈ c.lruList
  · have hres : Resident c key := (wf.keys key).mpr present
    have hnone : creation c c' key = [] := if_neg fun h => h.1 hres
    rw [hnone, List.nil_append, enter_present present]
    exact chron
  · have habsent : ¬ Resident c key := mt (wf.keys key).mp present
    have hmem : (⟨key⟩ : Node) ∈ c'.lruList := rep.order ▸ mem_enter_self maxBlockNum_pos _ _
    have hres : Resident c' key := by
      rw [Resident, rep.content, if_pos hmem, if_pos rfl]
      rfl
    have hone : creation c c' key = [⟨key⟩] := if_pos ⟨habsent, hres⟩
    rw [hone, List.singleton_append]
    exact chron.enter present

/-- The state of the loop of `insert` at the block `b`. -/
structure InsertInv (s : UInt32) (st : Watched nameLen × UInt32) : Prop where
  kept : Kept st.1
  aligned : st.2.toNat % 4096 = 0
  from_first : (firstBlock s).toNat ≤ st.2.toNat

section Insert

variable {name : Vector UInt8 nameLen} {s e : UInt32} {st : Watched nameLen × UInt32}
  (proper : Proper s e) (inv : InsertInv s st)
include proper inv

/-- What a round of `insert` does to a cache and its events. -/
lemma InsertInv.round (before : st.2 < e) (name : Vector UInt8 nameLen) (dataBuf : Buffer) :
    ∃ (w' : Watched nameLen) (block : Block),
      Replaced st.1.cache (nameSeqToKey name st.2) block w'.cache ∧
      InsertInv s (w', st.2 + blockLen) ∧ (st.2 + blockLen).toNat = st.2.toNat + 4096 ∧
      (watchInsertPass name s e dataBuf st = .again (w', st.2 + blockLen) ∨
        watchInsertPass name s e dataBuf st = .leave w') := by
  have visit : Visits s e st.2 := ⟨inv.aligned, inv.from_first, before, proper.1, proper.2⟩
  have wf := inv.kept.represented.wellFormed
  obtain ⟨c', block, rep, sep, hpass⟩ := insertPass_round wf name visit dataBuf
  have hnext := visit.toNat_next
  have haligned := inv.aligned
  have hfirst := inv.from_first
  refine ⟨⟨c', creation st.1.cache c' (nameSeqToKey name st.2) ++ st.1.events⟩, block, rep,
    ⟨⟨?_, ?_⟩, ?_, ?_⟩, hnext, ?_⟩
  · exact Replaced.represented inv.kept.represented visit rep sep
  · exact chronological_replaced wf rep inv.kept.chronological
  · simp only
    omega
  · simp only
    omega
  · rcases hpass with hgo | ⟨hleave, _⟩
    · exact .inl (by rw [watchInsertPass, hgo])
    · exact .inr (by rw [watchInsertPass, hleave])

omit proper inv in
lemma watchInsertPass_done (after : ¬ st.2 < e) (dataBuf : Buffer) :
    watchInsertPass name s e dataBuf st = .leave st.1 := by
  have hpass : insertPass name s e dataBuf (st.1.cache, st.2) = .leave st.1.cache :=
    insertPass_done (UInt32.not_lt.mp after)
  have hnone : creation st.1.cache st.1.cache (nameSeqToKey name st.2) = [] :=
    if_neg fun h => h.1 h.2
  rw [watchInsertPass, hpass]
  simp only [hnone, List.nil_append]

lemma InsertInv.again {dataBuf : Buffer} {st' : Watched nameLen × UInt32}
    (h : watchInsertPass name s e dataBuf st = .again st') :
    InsertInv s st' ∧ blockCount st'.2 e < blockCount st.2 e := by
  by_cases before : st.2 < e
  · obtain ⟨w', block, _, hinv, hnext, hgo | hleave⟩ :=
      inv.round proper before name dataBuf
    · rw [hgo] at h
      cases h
      rw [UInt32.lt_iff_toNat_lt] at before
      refine ⟨hinv, ?_⟩
      simp only [blockCount]
      omega
    · rw [hleave] at h
      cases h
  · rw [watchInsertPass_done before] at h
    cases h

lemma InsertInv.leave {dataBuf : Buffer} {w' : Watched nameLen}
    (h : watchInsertPass name s e dataBuf st = .leave w') : Kept w' := by
  by_cases before : st.2 < e
  · obtain ⟨w₁, block, _, hinv, _, hgo | hleave⟩ :=
      inv.round proper before name dataBuf
    · rw [hgo] at h
      cases h
    · rw [hleave] at h
      cases h
      exact hinv.kept
  · rw [watchInsertPass_done before] at h
    cases h
    exact inv.kept

end Insert

lemma watchInsert_returns {w : Watched nameLen} (kept : Kept w) (name : Vector UInt8 nameLen)
    {s e : UInt32} (proper : Proper s e) (dataBuf : Buffer) :
    ∃ w', watchInsert w name s e dataBuf = some w' ∧ Kept w' := by
  refine loop_total (InsertInv s) Kept (fun st => blockCount st.2 e) ?_ ?_
    ⟨kept, firstBlock_aligned s, Nat.le_refl _⟩ (blockCount_le_budget _ _)
  · exact fun st st' inv h => inv.again proper h
  · exact fun st w' inv h => inv.leave proper h

/-- A round of `read` that goes on, or leaves, with a byte or without one. -/
lemma readPass_round {c : Cache nameLen} (wf : WellFormed c) {name : Vector UInt8 nameLen}
    {s e : UInt32} (proper : Proper s e) {rd : Reading nameLen} {b : UInt32}
    (inv : ReadInv c name s e rd b) :
    readPass name s e (rd, b) = .leave rd ∨
      ∃ block readEnd, c.dataMap (nameSeqToKey name b) = some block ∧ imax s b < readEnd ∧
        (readPass name s e (rd, b) = .leave (copied rd block s b readEnd) ∨
          readPass name s e (rd, b) = .again (copied rd block s b readEnd, b + blockLen)) := by
  rcases readPass_moved name s e rd b with hleave | ⟨block, resident, before, hsome, hgoes⟩
  · exact .inl hleave
  · rw [inv.same] at resident
    have sep := wf.tables name b block resident inv.aligned
    have hbelow := resident_below_top (.inl proper.2) inv.aligned before resident
    have hstops : ∀ r ∈ block.ranges, ¬ r.Empty → r.stop.toNat ≤ 2 ^ 32 - 4096 :=
      fun r hr live => (sep.inside r hr live).2.2.trans hbelow
    rcases readEnd_spec (imax s b) e hstops with ⟨hend, _⟩ | ⟨r, _, hold, hend, _⟩
    · exact absurd hend hsome
    · refine .inr ⟨block, _, resident, ?_, hgoes⟩
      have hstop := hold.2
      have hproper := proper.1
      simp only [hend, UInt32.lt_iff_toNat_lt, toNat_imax, toNat_imin] at hstop hproper before ⊢
      omega

/-- The state of the loop of `read` at the block `b`. -/
structure ReadKept (c : Cache nameLen) (name : Vector UInt8 nameLen) (s e : UInt32)
    (st : WatchedReading nameLen × UInt32) : Prop where
  inv : ReadInv c name s e st.1.reading st.2
  chronological : Chronological st.1.events st.1.reading.cache.lruList

/-- A round that takes bytes from a block moves the block to the end of the list. -/
lemma chronological_copied {c : Cache nameLen} {name : Vector UInt8 nameLen} {s e : UInt32}
    {rd : Reading nameLen} {b readEnd : UInt32} {events : List Node}
    (inv : ReadInv c name s e rd b) (chron : Chronological events rd.cache.lruList) {block : Block}
    (resident : c.dataMap (nameSeqToKey name b) = some block) (grows : imax s b < readEnd) :
    Chronological (delivery rd (copied rd block s b readEnd) (nameSeqToKey name b) ++ events)
      (copied rd block s b readEnd).cache.lruList := by
  have hlen : rd.readlen < (copied rd block s b readEnd).readlen := by
    have hsub := Words.toNat_sub_of_le (UInt32.le_of_lt grows)
    rw [UInt32.lt_iff_toNat_lt] at grows
    simp only [copied]
    omega
  have hone : delivery rd (copied rd block s b readEnd) (nameSeqToKey name b) =
      [⟨nameSeqToKey name b⟩] := if_pos hlen
  have hnode := inv.wellFormed.backlinks _ block (inv.same.symm ▸ resident)
  rw [hone, List.singleton_append]
  simp only [copied, updateLRU, hnode]
  exact chron.refresh inv.wellFormed.once

lemma delivery_none (rd : Reading nameLen) (key : Key) : delivery rd rd key = [] :=
  if_neg (Nat.lt_irrefl _)

lemma ReadKept.pass {c : Cache nameLen} (wf : WellFormed c) {name : Vector UInt8 nameLen}
    {s e : UInt32} (proper : Proper s e) {st : WatchedReading nameLen × UInt32}
    (kept : ReadKept c name s e st) :
    match watchReadPass name s e st with
    | .leave rd => Delivers c name s e rd.reading ∧ Chronological rd.events rd.reading.cache.lruList
    | .again st' => ReadKept c name s e st' ∧ st.2.toNat < st'.2.toNat := by
  obtain ⟨⟨rd, events⟩, b⟩ := st
  have inv : ReadInv c name s e rd b := kept.inv
  have chron : Chronological events rd.cache.lruList := kept.chronological
  have hcases := readPass_cases wf proper.1 (.inl proper.2) inv
  simp only [watchReadPass]
  rcases readPass_round wf proper inv with hleave | ⟨block, readEnd, resident, grows, hleave | hgo⟩
  · rw [hleave] at hcases ⊢
    simp only [delivery_none, List.nil_append]
    exact ⟨hcases, chron⟩
  · rw [hleave] at hcases ⊢
    exact ⟨hcases, chronological_copied inv chron resident grows⟩
  · rw [hgo] at hcases ⊢
    exact ⟨⟨hcases.1, chronological_copied inv chron resident grows⟩, hcases.2⟩

lemma watchRead_kept {w : Watched nameLen} (kept : Kept w) (name : Vector UInt8 nameLen)
    {s e : UInt32} (proper : Proper s e) (dataBuf : Buffer) :
    Chronological (watchRead w name s e dataBuf).events
      (watchRead w name s e dataBuf).reading.cache.lruList := by
  have wf := kept.represented.wellFormed
  refine loop_getD_invariant (ReadKept w.cache name s e)
    (fun rd : WatchedReading nameLen => Chronological rd.events rd.reading.cache.lruList)
    ?_ ?_ ⟨readInv_start wf name s e dataBuf, kept.chronological⟩ kept.chronological
  · intro st st' hst hpass
    have hcases := hst.pass wf proper
    rw [hpass] at hcases
    exact hcases.1
  · intro st rd hst hpass
    have hcases := hst.pass wf proper
    rw [hpass] at hcases
    exact hcases.2

lemma watchStep_kept {w : Watched nameLen} (kept : Kept w) {call : Call nameLen}
    (valid : call.Valid) : ∃ w', watchStep call w = some w' ∧ Kept w' := by
  cases call with
  | insert name s e dataBuf => exact watchInsert_returns kept name valid dataBuf
  | read name s e dataBuf =>
    refine ⟨_, rfl, ?_, watchRead_kept kept name valid dataBuf⟩
    simp only [watchRead_reading]
    exact read_represented kept.represented name valid dataBuf

/-- A block that a round of `insert` takes away is the resident block with the oldest last
event, and makes room for the block created; the others stay as they are. -/
structure EvictsOldest (w w' : Watched nameLen) (key : Key) : Prop where
  oldest : ∀ k, Resident w.cache k → ¬ Resident w'.cache k →
    k ≠ key ∧ ¬ Resident w.cache key ∧ Resident w'.cache key ∧
      ∀ j, Resident w.cache j → j ≠ k → age w.events ⟨j⟩ < age w.events ⟨k⟩
  others : ∀ k, k ≠ key → Resident w'.cache k → w'.cache.dataMap k = w.cache.dataMap k

/-- The state after a round, whether the loop goes on or leaves. -/
def outcome : Pass (Watched nameLen × UInt32) (Watched nameLen) → Watched nameLen
  | .leave w => w
  | .again st => st.1

lemma replaced_evictsOldest {w w' : Watched nameLen} (kept : Kept w) {key : Key} {block : Block}
    (rep : Replaced w.cache key block w'.cache) : EvictsOldest w w' key := by
  have wf := kept.represented.wellFormed
  have hself : (⟨key⟩ : Node) ∈ w'.cache.lruList := rep.order ▸ mem_enter_self maxBlockNum_pos _ _
  have hkey : Resident w'.cache key := by
    rw [Resident, rep.content, if_pos hself, if_pos rfl]
    rfl
  constructor
  · intro k hres hgone
    have hpresent : (⟨k⟩ : Node) ∈ w.cache.lruList := (wf.keys k).mp hres
    have hne : k ≠ key := fun h => hgone (h ▸ hkey)
    have hdropped : (⟨k⟩ : Node) ∉ enter maxBlockNum w.cache.lruList ⟨key⟩ := by
      intro hmem
      rw [← rep.order] at hmem
      rw [Resident, rep.content, if_pos hmem, if_neg hne] at hgone
      exact hgone hres
    obtain ⟨hnew, hold⟩ := kept.chronological.enter_drops hpresent hdropped
    refine ⟨hne, mt (wf.keys key).mp hnew, hkey, ?_⟩
    intro j hj hjk
    exact hold ⟨j⟩ ((wf.keys j).mp hj) fun h => hjk (congrArg Node.blockIter h)
  · intro k hne hres
    rw [Resident, rep.content] at hres
    rw [rep.content]
    by_cases hmem : (⟨k⟩ : Node) ∈ w'.cache.lruList
    · rw [if_pos hmem, if_neg hne]
    · rw [if_neg hmem] at hres
      cases hres

/-- Three views of the same blocks, in the order of their last events. Only `insert`
takes blocks away, and each of its rounds at most the oldest. -/
structure BoundedLru (w : Watched nameLen) : Prop where
  sameKeys : ∀ key, Resident w.cache key ↔ (⟨key⟩ : Node) ∈ w.cache.lruList
  once : w.cache.lruList.Nodup
  bounded : w.cache.lruList.length ≤ maxBlockNum
  ownEntry : ∀ key block, w.cache.dataMap key = some block → block.nodeIter = key
  chronological : Chronological w.events w.cache.lruList
  evictions : ∀ name s e dataBuf, Proper s e → ∀ st,
    Passes (watchInsertPass name s e dataBuf) (w, firstBlock s) st →
    EvictsOldest st.1 (outcome (watchInsertPass name s e dataBuf st)) (nameSeqToKey name st.2)
  reads : ∀ name s e dataBuf, Proper s e →
    (watchRead w name s e dataBuf).reading.cache.dataMap = w.cache.dataMap

lemma kept_passes {w : Watched nameLen} (kept : Kept w) {name : Vector UInt8 nameLen}
    {s e : UInt32} (proper : Proper s e) {dataBuf : Buffer} {st : Watched nameLen × UInt32}
    (passes : Passes (watchInsertPass name s e dataBuf) (w, firstBlock s) st) : InsertInv s st := by
  induction passes with
  | start => exact ⟨kept, firstBlock_aligned s, Nat.le_refl _⟩
  | next _ h ih => exact (ih.again proper h).1

lemma Kept.boundedLru {w : Watched nameLen} (kept : Kept w) : BoundedLru w := by
  have wf := kept.represented.wellFormed
  refine ⟨wf.keys, wf.once, wf.bounded, wf.backlinks, kept.chronological, ?_, ?_⟩
  · intro name s e dataBuf proper st passes
    have inv := kept_passes kept proper passes
    by_cases before : st.2 < e
    · obtain ⟨w', block, rep, _, _, hgo | hleave⟩ :=
        inv.round proper before name dataBuf
      · rw [hgo]
        exact replaced_evictsOldest inv.kept rep
      · rw [hleave]
        exact replaced_evictsOldest inv.kept rep
    · rw [watchInsertPass_done before]
      exact ⟨fun k hres hgone => absurd hres hgone, fun _ _ _ => rfl⟩
  · intro name s e dataBuf proper
    rw [watchRead_reading]
    exact (read_delivers wf name proper.1 (.inl proper.2) dataBuf).same

/-- Every run returns, and what is watched of it is a bounded LRU. -/
theorem run_boundedLru (heap : Nat → Buffer) (calls : List (Call nameLen))
    (valid : ∀ call ∈ calls, call.Valid) :
    ∃ w, run watchStep (Watched.fresh heap) calls = some w ∧
      run Call.step (Cache.fresh heap) calls = some w.cache ∧ BoundedLru w := by
  obtain ⟨w, hwatch, hrun, kept⟩ : ∃ w, run watchStep (Watched.fresh heap) calls = some w ∧
      run Call.step (Cache.fresh heap) calls = some w.cache ∧ Kept w := by
    induction calls using List.reverseRecOn with
    | nil => exact ⟨Watched.fresh heap, rfl, rfl, fresh_kept heap⟩
    | append_singleton calls call ih =>
      obtain ⟨w, hwatch, hrun, kept⟩ := ih fun call h => valid call (List.mem_append_left _ h)
      obtain ⟨w', hstep, kept'⟩ := watchStep_kept kept (valid call (by simp))
      have hcache := watchStep_cache call w
      rw [hstep, Option.map_some] at hcache
      refine ⟨w', ?_, ?_, kept'⟩
      · rw [run_snoc, hwatch]
        exact hstep
      · rw [run_snoc, hrun]
        exact hcache.symm
  exact ⟨w, hwatch, hrun, kept.boundedLru⟩

theorem overlapping_run_boundedLru :
    ∃ w, run watchStep (Watched.fresh fun _ _ => 0) overlappingCalls = some w ∧
      run Call.step (Cache.fresh fun _ _ => 0) overlappingCalls = some w.cache ∧ BoundedLru w :=
  run_boundedLru _ _ (by decide)

end RecencyRuns
