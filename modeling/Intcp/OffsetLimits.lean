import Intcp.InterestPlane
import Intcp.LastWrite

/-!
# Offsets at the top of the 32-bit space

`insert` advances by `BLOCK_LEN` and `flushIntQueue` by `INTCP_INT_RANGE_LIMIT`
without a check for wrapping. What they visit, copy and append is right as long as
the last block, or the last packet, does not reach the limit.
-/

namespace OffsetLimits

open FuelledLoop StepRuns Words BlockCache LruOrder CacheContents LastWrite TransControl
  InterestPlane

universe u
variable {F : Type u} {nameLen : Nat} {P : Platform F}

/-- A pass of `insert` replaces the block that it visits, if it goes on. -/
lemma insertPass_replaced {c : Cache nameLen} (indexed : Indexed c) {name : Vector UInt8 nameLen}
    {s e b : UInt32} (before : b < e) (dataBuf : Buffer) :
    (∃ block, c.dataMap (nameSeqToKey name b) = some block ∧
      (block.claim (imax s b) (imin (b + blockLen) e)).1 = true ∧
      ∃ c' block', insertPass name s e dataBuf (c, b) = .leave c' ∧
        Replaced c (nameSeqToKey name b) block' c') ∨
    ((∀ block, c.dataMap (nameSeqToKey name b) = some block →
        (block.claim (imax s b) (imin (b + blockLen) e)).1 = false) ∧
      ∃ c' block', insertPass name s e dataBuf (c, b) = .again (c', b + blockLen) ∧
        Replaced c (nameSeqToKey name b) block' c') := by
  cases hblock : c.dataMap (nameSeqToKey name b) with
  | none =>
    have hlink : (((addBlock c (nameSeqToKey name b)).2.claimFirst (imax s b)
        (imin (b + blockLen) e)).fill b s (imax s b) (imin (b + blockLen) e) dataBuf).nodeIter =
          nameSeqToKey name b := (addBlock_block c (nameSeqToKey name b)).2
    refine Or.inr ⟨nofun, _, _, ?_, replaced_added indexed hblock hlink⟩
    simp only [insertPass, if_pos before, ByteMap.readValue, hblock]
  | some block =>
    have hkey := indexed.backlinks _ _ hblock
    cases hclaim : (block.claim (imax s b) (imin (b + blockLen) e)).1 with
    | true =>
      have hlink : (block.claim (imax s b) (imin (b + blockLen) e)).2.nodeIter =
        nameSeqToKey name b := hkey
      refine Or.inl ⟨block, rfl, hclaim, _, _, ?_, replaced_resident indexed hblock hlink⟩
      simp only [insertPass, if_pos before, ByteMap.readValue, hblock, hclaim, if_true]
    | false =>
      have hroom : ∀ other, some block = some other →
          (other.claim (imax s b) (imin (b + blockLen) e)).1 = false := by
        rintro other ⟨rfl⟩
        exact hclaim
      have hlink : ((block.claim (imax s b) (imin (b + blockLen) e)).2.fill b s (imax s b)
        (imin (b + blockLen) e) dataBuf).nodeIter = nameSeqToKey name b := hkey
      refine Or.inr ⟨hroom, _, _, ?_, replaced_resident indexed hblock hlink⟩
      simp only [insertPass, if_pos before, ByteMap.readValue, hblock, hclaim]
      rfl

lemma insert_indexed {c c' : Cache nameLen} (indexed : Indexed c) {name : Vector UInt8 nameLen}
    {s e : UInt32} {dataBuf : Buffer} (h : BlockCache.insert c name s e dataBuf = some c') :
    Indexed c' := by
  refine loop_invariant (fun st : Cache nameLen × UInt32 => Indexed st.1) Indexed ?_ ?_ indexed h
  · rintro ⟨c, b⟩ st hc hpass
    by_cases before : b < e
    · rcases @insertPass_replaced _ c hc name s e b before dataBuf with
        ⟨_, _, _, c₁, _, hleave, _⟩ | ⟨_, c₁, block, hagain, rep⟩
      · rw [hleave] at hpass
        cases hpass
      · rw [hagain] at hpass
        cases hpass
        exact rep.indexed hc
    · rw [insertPass_done (UInt32.not_lt.mp before)] at hpass
      cases hpass
  · rintro ⟨c, b⟩ r hc hpass
    by_cases before : b < e
    · rcases @insertPass_replaced _ c hc name s e b before dataBuf with
        ⟨_, _, _, c₁, block, hleave, rep⟩ | ⟨_, c₁, _, hagain, _⟩
      · rw [hleave] at hpass
        cases hpass
        exact rep.indexed hc
      · rw [hagain] at hpass
        cases hpass
    · rw [insertPass_done (UInt32.not_lt.mp before)] at hpass
      cases hpass
      exact hc

lemma read_indexed {c : Cache nameLen} (indexed : Indexed c) (name : Vector UInt8 nameLen)
    (s e : UInt32) (dataBuf : Buffer) : Indexed (BlockCache.read c name s e dataBuf).cache := by
  refine loop_getD_invariant (fun st : Reading nameLen × UInt32 => Indexed st.1.cache)
    (fun rd : Reading nameLen => Indexed rd.cache) ?_ ?_ indexed indexed
  · rintro ⟨rd, b⟩ st hc hpass
    rcases readPass_moved name s e rd b with
      hleave | ⟨block, resident, _, _, hleave | hagain⟩
    · cases hpass.symm.trans hleave
    · cases hpass.symm.trans hleave
    · cases hpass.symm.trans hagain
      exact updateLRU_indexed hc resident
  · rintro ⟨rd, b⟩ r hc hpass
    rcases readPass_moved name s e rd b with
      hleave | ⟨block, resident, _, _, hleave | hagain⟩
    · cases hpass.symm.trans hleave
      exact hc
    · cases hpass.symm.trans hleave
      exact updateLRU_indexed hc resident
    · cases hpass.symm.trans hagain

/-- Map and recency list agree after any calls, whatever their ranges are. -/
theorem run_indexed (heap : Nat → Buffer) {calls : List (Call nameLen)} {c : Cache nameLen}
    (h : run Call.step (Cache.fresh heap) calls = some c) : Indexed c := by
  refine run_invariant_all Indexed ?_ (fresh_wellFormed heap).indexed
    (fun _ _ => trivial) h
  intro c c' call indexed _ step
  cases call with
  | insert name s e dataBuf => exact insert_indexed indexed step
  | read name s e dataBuf =>
    cases step
    exact read_indexed indexed name s e dataBuf

/-- The arguments of the `memcpy` of a round, as distances from the start of the block and of
the data. -/
structure Copy where
  toBlock : UInt32
  fromData : UInt32
  length : UInt32
  deriving DecidableEq

def copyOf (s e b : UInt32) : Copy where
  toBlock := imax s b - b
  fromData := imax s b - s
  length := imin (b + blockLen) e - imax s b

structure Copy.Inside (copy : Copy) (s e : UInt32) : Prop where
  block : copy.toBlock.toNat + copy.length.toNat ≤ 4096
  data : copy.fromData.toNat + copy.length.toNat ≤ e.toNat - s.toNat

structure Trace where
  visits : List UInt32
  copies : List Copy

/-- `insertPass` with its visit and its copy noted down. -/
def tracePass (name : Vector UInt8 nameLen) (s e : UInt32) (dataBuf : Buffer)
    (st : (Cache nameLen × UInt32) × Trace) :
    Pass ((Cache nameLen × UInt32) × Trace) (Cache nameLen × Trace) :=
  match insertPass name s e dataBuf st.1 with
  | .leave c =>
    .leave (c, if st.1.2 < e then { st.2 with visits := st.2.visits ++ [st.1.2] } else st.2)
  | .again next =>
    .again (next,
      { visits := st.2.visits ++ [st.1.2], copies := st.2.copies ++ [copyOf s e st.1.2] })

/-- Nothing changes for the cache. -/
theorem tracePass_cache (name : Vector UInt8 nameLen) (s e : UInt32) (dataBuf : Buffer) (fuel : Nat)
    (st : (Cache nameLen × UInt32) × Trace) :
    (loop (tracePass name s e dataBuf) fuel st).map Prod.fst =
      loop (insertPass name s e dataBuf) fuel st.1 := by
  refine loop_map Prod.fst Prod.fst (fun st => ?_) fuel st
  rw [tracePass]
  cases insertPass name s e dataBuf st.1 <;> rfl

/-- The start of a block by its number. -/
def blockAt (k : Nat) : UInt32 := UInt32.ofNat (k * 4096)

def firstNumber (s : UInt32) : Nat := s.toNat / 4096
def lastNumber (e : UInt32) : Nat := (e.toNat - 1) / 4096

/-- The insert visited the blocks from the one of `s` to the one of `e - 1` in order, and copied
inside the blocks and the data. -/
def SafeResult (s e : UInt32) (r : Cache nameLen × Trace) : Prop :=
  r.2.visits.map UInt32.toNat =
      (List.range' (firstNumber s) (lastNumber e + 1 - firstNumber s)).map (· * 4096) ∧
    ∀ copy ∈ r.2.copies, copy.Inside s e

def InsertsSafely (c : Cache nameLen) (name : Vector UInt8 nameLen) (s e : UInt32)
    (dataBuf : Buffer) : Prop :=
  ∃ fuel r, loop (tracePass name s e dataBuf) fuel ((c, firstBlock s), ⟨[], []⟩) = some r ∧
    SafeResult s e r

/-- When the turn of the block comes it is resident, and its slots have no room for its part. -/
def FullAt (c : Cache nameLen) (name : Vector UInt8 nameLen) (s e : UInt32) (k : Nat) : Prop :=
  ∃ block, c.dataMap (nameSeqToKey name (blockAt k)) = some block ∧
    (⟨nameSeqToKey name (blockAt k)⟩ : Node) ∈ enterAll maxBlockNum c.lruList
      ((List.range' (firstNumber s) (k - firstNumber s)).map fun j => ⟨nameSeqToKey name (blockAt j)⟩) ∧
    (block.claim (imax s (blockAt k)) (imin (blockAt k + blockLen) e)).1 = true

/-- Only the last block may be full, and it has to be where its end is out of the offset space. -/
def Insertable (c : Cache nameLen) (name : Vector UInt8 nameLen) (s e : UInt32) : Prop :=
  (∀ k, firstNumber s ≤ k → k < lastNumber e → ¬ FullAt c name s e k) ∧
    (2 ^ 32 - 4096 < e.toNat → FullAt c name s e (lastNumber e))

/-- The range ends before the last block, or on the way round the offset space there is a block
which is full when its turn comes. -/
def Returnable (c : Cache nameLen) (name : Vector UInt8 nameLen) (s e : UInt32) : Prop :=
  e.toNat ≤ 2 ^ 32 - 4096 ∨
    ∃ k, firstNumber s ≤ k ∧ k < firstNumber s + 2 ^ 20 ∧ FullAt c name s e k

lemma toNat_blockAt {k : Nat} (top : k < 2 ^ 20) : (blockAt k).toNat = k * 4096 := by
  rw [blockAt, UInt32.toNat_ofNat']
  omega

lemma blockAt_firstNumber (s : UInt32) : blockAt (firstNumber s) = firstBlock s := by
  have hlt := s.toNat_lt
  rw [← UInt32.toNat_inj, toNat_firstBlock, toNat_blockAt (by rw [firstNumber]; omega), firstNumber]

lemma blockAt_succ (k : Nat) : blockAt k + blockLen = blockAt (k + 1) := by
  rw [blockAt, blockAt, Nat.succ_mul, UInt32.ofNat_add]
  rfl

lemma lastNumber_lt (e : UInt32) : lastNumber e < 2 ^ 20 := by
  have hlt := e.toNat_lt
  rw [lastNumber]
  omega

/-- The copy of a block that ends inside the offset space. -/
lemma copyOf_inside {s e : UInt32} (proper : s < e) {k : Nat} (first : firstNumber s ≤ k)
    (last : k ≤ lastNumber e) (inner : k + 1 < 2 ^ 20) : (copyOf s e (blockAt k)).Inside s e := by
  rw [UInt32.lt_iff_toNat_lt] at proper
  rw [firstNumber] at first
  rw [lastNumber] at last
  have hb := toNat_blockAt (k := k) (by omega)
  have hnext := toNat_blockAt inner
  have hstart := toNat_imax_sub_right s (blockAt k)
  have hsource := toNat_imax_sub_left s (blockAt k)
  have hlength : (imin (blockAt k + blockLen) e - imax s (blockAt k)).toNat =
      min ((k + 1) * 4096) e.toNat - max s.toNat (k * 4096) := by
    rw [blockAt_succ, Words.toNat_sub_of_le, toNat_imin, toNat_imax, hnext, hb]
    rw [UInt32.le_iff_toNat_le, toNat_imin, toNat_imax, hnext, hb]
    omega
  rw [hb] at hstart hsource
  constructor
  · simp only [copyOf, hstart, hlength]
    omega
  · simp only [copyOf, hsource, hlength]
    omega

/-- The copy of the last block of all goes on to the end of the offset space. -/
lemma copyOf_outside {s e : UInt32} (proper : s < e) (top : 2 ^ 32 - 4096 < e.toNat) :
    ¬ (copyOf s e (blockAt (lastNumber e))).Inside s e := by
  rintro ⟨_, hdata⟩
  rw [UInt32.lt_iff_toNat_lt] at proper
  have hlt := e.toNat_lt
  have hlast : lastNumber e = 2 ^ 20 - 1 := by
    rw [lastNumber]
    omega
  have hb : blockAt (lastNumber e) = topBlock := by
    rw [hlast]
    rfl
  have hend : imin (topBlock + blockLen) e = 0 := by
    rw [← UInt32.toNat_inj, toNat_imin]
    exact Nat.zero_min _
  have hsource := toNat_imax_sub_left s topBlock
  have htop : topBlock.toNat = 4294963200 := rfl
  have hstart := toNat_imax s topBlock
  have hlength : (0 - imax s topBlock).toNat = 2 ^ 32 - (imax s topBlock).toNat := by
    rw [UInt32.toNat_sub]
    have := (imax s topBlock).toNat_lt
    simp only [UInt32.toNat_zero]
    omega
  simp only [copyOf, hb, hend, hsource, hlength] at hdata
  omega

/-- The nodes of the blocks before the block `k`. -/
def earlier (name : Vector UInt8 nameLen) (s : UInt32) (k : Nat) : List Node :=
  (List.range' (firstNumber s) (k - firstNumber s)).map fun j => ⟨nameSeqToKey name (blockAt j)⟩

/-- The insert has come to the block `k`, in less than a round of the offset space. -/
structure Come (c : Cache nameLen) (name : Vector UInt8 nameLen) (s : UInt32) (k : Nat)
    (st : Cache nameLen × UInt32) : Prop where
  blockStart : st.2 = blockAt k
  indexed : Indexed st.1
  order : st.1.lruList = enterAll maxBlockNum c.lruList (earlier name s k)
  ahead : ∀ j, k ≤ j → j < firstNumber s + 2 ^ 20 → st.1.dataMap (nameSeqToKey name (blockAt j)) =
    if (⟨nameSeqToKey name (blockAt j)⟩ : Node) ∈ st.1.lruList
    then c.dataMap (nameSeqToKey name (blockAt j)) else none

/-- It has visited the blocks up to `k` and copied inside them. -/
structure Reached (c : Cache nameLen) (name : Vector UInt8 nameLen) (s e : UInt32) (k : Nat)
    (st : (Cache nameLen × UInt32) × Trace) : Prop extends Come c name s k st.1 where
  visits : st.2.visits = (List.range' (firstNumber s) (k - firstNumber s)).map blockAt
  copies : ∀ copy ∈ st.2.copies, copy.Inside s e

/-- Block starts differ within a round of the offset space. -/
lemma blockAt_injective {j k : Nat} (after : k ≤ j) (round : j < k + 2 ^ 20)
    (same : blockAt j = blockAt k) : j = k := by
  have := congrArg UInt32.toNat same
  rw [blockAt, blockAt, UInt32.toNat_ofNat', UInt32.toNat_ofNat'] at this
  omega

lemma range'_snoc {first k : Nat} (h : first ≤ k) :
    List.range' first (k + 1 - first) = List.range' first (k - first) ++ [k] := by
  have hcount : k + 1 - first = (k - first) + 1 := by omega
  have hlast : first + (k - first) = k := by omega
  rw [hcount, List.range'_1_concat, hlast]

lemma earlier_succ (name : Vector UInt8 nameLen) {s : UInt32} {k : Nat} (h : firstNumber s ≤ k) :
    earlier name s (k + 1) = earlier name s k ++ [⟨nameSeqToKey name (blockAt k)⟩] := by
  rw [earlier, range'_snoc h, List.map_append]
  rfl

variable {c : Cache nameLen} {name : Vector UInt8 nameLen} {s e : UInt32} {k : Nat}
  {st : (Cache nameLen × UInt32) × Trace}

lemma Come.fullAt_iff {st : Cache nameLen × UInt32} (come : Come c name s k st)
    (round : k < firstNumber s + 2 ^ 20) :
    FullAt c name s e k ↔ ∃ block, st.1.dataMap (nameSeqToKey name st.2) = some block ∧
      (block.claim (imax s st.2) (imin (st.2 + blockLen) e)).1 = true := by
  rw [come.blockStart, FullAt]
  refine exists_congr fun block => ?_
  rw [come.ahead k (Nat.le_refl k) round, come.order]
  by_cases hmem : (⟨nameSeqToKey name (blockAt k)⟩ : Node) ∈
      enterAll maxBlockNum c.lruList (earlier name s k)
  · rw [if_pos hmem]
    simp only [earlier] at hmem
    simp only [hmem, true_and]
  · rw [if_neg hmem]
    simp only [earlier] at hmem
    simp only [hmem, false_and, and_false, reduceCtorEq]

lemma come_start (indexed : Indexed c) : Come c name s (firstNumber s) (c, firstBlock s) := by
  refine ⟨(blockAt_firstNumber s).symm, indexed, ?_, ?_⟩
  · rw [earlier, Nat.sub_self]
    rfl
  · intro j _ _
    split
    · rfl
    · rename_i hmem
      exact indexed.absent hmem

/-- A pass that goes on comes to the next block. -/
lemma Come.next {st : Cache nameLen × UInt32} (come : Come c name s k st) (first : firstNumber s ≤ k)
    {c' : Cache nameLen} {block : Block}
    (rep : Replaced st.1 (nameSeqToKey name st.2) block c') :
    Come c name s (k + 1) (c', st.2 + blockLen) := by
  rw [come.blockStart] at rep
  constructor
  · simp only [come.blockStart, blockAt_succ]
  · exact rep.indexed come.indexed
  · rw [rep.order, come.order, earlier_succ name first, enterAll, enterAll, List.foldl_append]
    rfl
  · intro j hj hj'
    have hne : nameSeqToKey name (blockAt j) ≠ nameSeqToKey name (blockAt k) := by
      intro h
      have := blockAt_injective (by omega) (by omega) (nameSeqToKey_injective h).2
      omega
    simp only
    rw [rep.content, if_neg hne, come.ahead j (by omega) hj']
    by_cases hmem : (⟨nameSeqToKey name (blockAt j)⟩ : Node) ∈ c'.lruList
    · have hold : (⟨nameSeqToKey name (blockAt j)⟩ : Node) ∈ st.1.lruList := by
        rw [rep.order] at hmem
        rcases mem_of_mem_enter hmem with h | h
        · exact absurd (congrArg Node.blockIter h) hne
        · exact h
      rw [if_pos hmem, if_pos hold, if_pos hmem]
    · rw [if_neg hmem, if_neg hmem]

lemma before_end (proper : s < e) (last : k ≤ lastNumber e) : blockAt k < e := by
  rw [UInt32.lt_iff_toNat_lt] at proper
  have hlast := lastNumber_lt e
  rw [UInt32.lt_iff_toNat_lt, toNat_blockAt (by omega)]
  rw [lastNumber] at last
  omega

/-- A round that finds its block full ends the insert. -/
lemma Reached.full (reached : Reached c name s e k st) (proper : s < e) (first : firstNumber s ≤ k)
    (last : k ≤ lastNumber e) (full : FullAt c name s e k) (dataBuf : Buffer) :
    ∃ c', tracePass name s e dataBuf st = .leave (c',
      { st.2 with visits := (List.range' (firstNumber s) (k + 1 - firstNumber s)).map blockAt }) := by
  have hlast := lastNumber_lt e
  obtain ⟨block, hblock, hclaim⟩ := (reached.toCome.fullAt_iff (by omega)).mp full
  have hbefore : st.1.2 < e := reached.blockStart ▸ before_end proper last
  rcases insertPass_replaced reached.indexed hbefore dataBuf with
    ⟨_, _, _, c', _, hleave, _⟩ | ⟨hroom, _⟩
  · refine ⟨c', ?_⟩
    rw [tracePass, hleave]
    simp only [reached.visits, reached.blockStart, range'_snoc first, List.map_append,
      if_pos (before_end proper last)]
    rfl
  · rw [hroom block hblock] at hclaim
    cases hclaim

/-- Every other round goes on to the next block. -/
lemma Reached.room (reached : Reached c name s e k st) (proper : s < e) (first : firstNumber s ≤ k)
    (last : k ≤ lastNumber e) (room : ¬ FullAt c name s e k) (dataBuf : Buffer) :
    ∃ st', tracePass name s e dataBuf st = .again st' ∧ copyOf s e (blockAt k) ∈ st'.2.copies ∧
      ((copyOf s e (blockAt k)).Inside s e → Reached c name s e (k + 1) st') := by
  have hlast := lastNumber_lt e
  have hbefore : st.1.2 < e := reached.blockStart ▸ before_end proper last
  rcases insertPass_replaced reached.indexed hbefore dataBuf with
    ⟨block, hblock, hclaim, _⟩ | ⟨_, c', block, hagain, rep⟩
  · exact absurd ((reached.toCome.fullAt_iff (by omega)).mpr ⟨block, hblock, hclaim⟩) room
  · refine ⟨((c', st.1.2 + blockLen),
      ⟨st.2.visits ++ [st.1.2], st.2.copies ++ [copyOf s e st.1.2]⟩),
      by rw [tracePass, hagain], by simp [reached.blockStart], fun inside => ?_⟩
    refine ⟨reached.toCome.next first rep, ?_, ?_⟩
    · simp only [reached.visits, reached.blockStart, range'_snoc first, List.map_append]
      rfl
    · intro copy hcopy
      rcases List.mem_append.mp hcopy with hcopy | hcopy
      · exact reached.copies copy hcopy
      · rw [List.mem_singleton.mp hcopy, reached.blockStart]
        exact inside

/-- As long as no block is full the insert comes to the next one. -/
lemma reached_passes (indexed : Indexed c) (proper : s < e) (dataBuf : Buffer) {k : Nat}
    (first : firstNumber s ≤ k) (last : k ≤ lastNumber e)
    (room : ∀ j, firstNumber s ≤ j → j < k → ¬ FullAt c name s e j) :
    ∃ st, Passes (tracePass name s e dataBuf) ((c, firstBlock s), ⟨[], []⟩) st ∧
      Reached c name s e k st := by
  induction k, first using Nat.le_induction with
  | base =>
    refine ⟨_, .start, come_start indexed, ?_, nofun⟩
    rw [Nat.sub_self]
    rfl
  | succ k first ih =>
    obtain ⟨st, hpasses, reached⟩ := ih (by omega) fun j hj hjk => room j hj (by omega)
    obtain ⟨st', hagain, _, hreached⟩ :=
      reached.room proper first (by omega) (room k first (Nat.lt_succ_self k)) dataBuf
    have hlast := lastNumber_lt e
    exact ⟨st', .next hpasses hagain, hreached (copyOf_inside proper first (by omega) (by omega))⟩

lemma insertsSafely_iff_of_passes {dataBuf : Buffer}
    (passes : Passes (tracePass name s e dataBuf) ((c, firstBlock s), ⟨[], []⟩) st) :
    InsertsSafely c name s e dataBuf ↔
      ∃ fuel r, loop (tracePass name s e dataBuf) fuel st = some r ∧ SafeResult s e r :=
  returns_iff_of_passes passes (SafeResult s e)

lemma returns_of_leave {dataBuf : Buffer} {r : Cache nameLen × Trace}
    (h : tracePass name s e dataBuf st = .leave r) :
    (∃ fuel r, loop (tracePass name s e dataBuf) fuel st = some r ∧ SafeResult s e r) ↔
      SafeResult s e r := by
  constructor
  · rintro ⟨fuel, r', hr, safe⟩
    cases fuel with
    | zero => cases hr
    | succ fuel =>
      rw [loop_leave fuel h] at hr
      exact Option.some.inj hr ▸ safe
  · exact fun safe => ⟨1, r, loop_leave 0 h, safe⟩

/-- A copy that was made stays made. -/
lemma copy_stays {dataBuf : Buffer} {copy : Copy} (made : copy ∈ st.2.copies) {fuel : Nat}
    {r : Cache nameLen × Trace} (h : loop (tracePass name s e dataBuf) fuel st = some r) :
    copy ∈ r.2.copies := by
  refine loop_invariant (fun st : (Cache nameLen × UInt32) × Trace => copy ∈ st.2.copies)
    (fun r : Cache nameLen × Trace => copy ∈ r.2.copies) ?_ ?_ made h
  · intro st st' hmade hpass
    rw [tracePass] at hpass
    split at hpass <;> cases hpass
    exact List.mem_append_left _ hmade
  · intro st r hmade hpass
    rw [tracePass] at hpass
    split at hpass <;> cases hpass
    split <;> exact hmade

lemma map_blockAt {first n : Nat} (top : first + n ≤ 2 ^ 20) :
    ((List.range' first n).map blockAt).map UInt32.toNat =
      (List.range' first n).map (· * 4096) := by
  rw [List.map_map]
  refine List.map_congr_left fun k hk => ?_
  have := List.mem_range'_1.mp hk
  exact toNat_blockAt (by omega)

lemma firstNumber_le (proper : s < e) : firstNumber s ≤ lastNumber e := by
  rw [UInt32.lt_iff_toNat_lt] at proper
  rw [firstNumber, lastNumber]
  omega

/-- From the last block on, when no earlier one was full. -/
lemma Reached.last (reached : Reached c name s e (lastNumber e) st) (proper : s < e)
    (dataBuf : Buffer) :
    (∃ fuel r, loop (tracePass name s e dataBuf) fuel st = some r ∧ SafeResult s e r) ↔
      (2 ^ 32 - 4096 < e.toNat → FullAt c name s e (lastNumber e)) := by
  have hfirst := firstNumber_le proper
  have hlast := lastNumber_lt e
  have hvisits := @map_blockAt (firstNumber s) (lastNumber e + 1 - firstNumber s) (by omega)
  by_cases full : FullAt c name s e (lastNumber e)
  · obtain ⟨c', hleave⟩ := reached.full proper hfirst (Nat.le_refl _) full dataBuf
    rw [returns_of_leave hleave]
    exact iff_of_true ⟨hvisits, reached.copies⟩ fun _ => full
  · obtain ⟨st', hagain, hmade, hreached⟩ :=
      reached.room proper hfirst (Nat.le_refl _) full dataBuf
    have hnext : Passes (tracePass name s e dataBuf) st st' := .next .start hagain
    by_cases top : 2 ^ 32 - 4096 < e.toNat
    · refine iff_of_false ?_ fun h => full (h top)
      rw [returns_iff_of_passes hnext (SafeResult s e)]
      rintro ⟨fuel, r, hr, safe⟩
      exact copyOf_outside proper top (safe.2 _ (copy_stays hmade hr))
    · refine iff_of_true ?_ fun h => absurd h top
      have inner : lastNumber e + 1 < 2 ^ 20 := by
        rw [lastNumber]
        omega
      have hreached := hreached (copyOf_inside proper hfirst (Nat.le_refl _) inner)
      have hend : e ≤ st'.1.2 := by
        rw [hreached.blockStart, UInt32.le_iff_toNat_le, toNat_blockAt inner, lastNumber]
        omega
      have hleave : tracePass name s e dataBuf st' = .leave (st'.1.1, st'.2) := by
        have hdone : insertPass name s e dataBuf st'.1 = .leave st'.1.1 := insertPass_done hend
        rw [tracePass, hdone]
        simp only [if_neg (UInt32.not_lt.mpr hend)]
      rw [returns_iff_of_passes hnext (SafeResult s e), returns_of_leave hleave]
      exact ⟨by rw [hreached.visits]; exact hvisits, hreached.copies⟩

theorem insertsSafely_iff (indexed : Indexed c) (proper : s < e) (dataBuf : Buffer) :
    InsertsSafely c name s e dataBuf ↔ Insertable c name s e := by
  have hlast := lastNumber_lt e
  by_cases blocked : ∃ k, firstNumber s ≤ k ∧ k < lastNumber e ∧ FullAt c name s e k
  · -- the first full block ends the insert, and the blocks behind it are not visited
    classical
    obtain ⟨hk, hbefore, hfull⟩ := Nat.find_spec blocked
    have hleast : ∀ j, firstNumber s ≤ j → j < Nat.find blocked → ¬ FullAt c name s e j :=
      fun j hj hjk full => Nat.find_min blocked hjk ⟨hj, by omega, full⟩
    obtain ⟨st, hpasses, reached⟩ := reached_passes indexed proper dataBuf hk (by omega) hleast
    obtain ⟨c', hleave⟩ := reached.full proper hk (by omega) hfull dataBuf
    refine iff_of_false ?_ fun h => h.1 _ hk hbefore hfull
    rw [insertsSafely_iff_of_passes hpasses, returns_of_leave hleave]
    rintro ⟨hvisits, _⟩
    have := congrArg List.length hvisits
    simp only [List.length_map, List.length_range'] at this
    omega
  · have hroom : ∀ k, firstNumber s ≤ k → k < lastNumber e → ¬ FullAt c name s e k :=
      fun k hk hbefore full => blocked ⟨k, hk, hbefore, full⟩
    obtain ⟨st, hpasses, reached⟩ :=
      reached_passes indexed proper dataBuf (firstNumber_le proper) (Nat.le_refl _) hroom
    rw [insertsSafely_iff_of_passes hpasses, reached.last proper dataBuf]
    exact ⟨fun h => ⟨hroom, h⟩, And.right⟩

/-- As long as no block is full the insert goes on, for a round of the offset space. -/
lemma come_rounds (indexed : Indexed c) (top : 2 ^ 32 - 4096 < e.toNat) (dataBuf : Buffer) {n : Nat}
    (round : n ≤ 2 ^ 20)
    (room : ∀ j, firstNumber s ≤ j → j < firstNumber s + n → ¬ FullAt c name s e j) :
    ∃ st, Come c name s (firstNumber s + n) st ∧ st.2 < e ∧
      ∀ fuel, loop (insertPass name s e dataBuf) (fuel + n) (c, firstBlock s) =
        loop (insertPass name s e dataBuf) fuel st := by
  have before : ∀ k, blockAt k < e := by
    intro k
    rw [UInt32.lt_iff_toNat_lt, blockAt, UInt32.toNat_ofNat']
    omega
  induction n with
  | zero =>
    exact ⟨_, come_start indexed, blockAt_firstNumber s ▸ before _, fun _ => rfl⟩
  | succ n ih =>
    obtain ⟨⟨c₁, b⟩, come, hb, hloop⟩ := ih (by omega) fun j hj hjn => room j hj (by omega)
    have notFull := room (firstNumber s + n) (Nat.le_add_right _ _) (by omega)
    rw [come.fullAt_iff (by omega)] at notFull
    rcases insertPass_replaced come.indexed hb dataBuf with
      ⟨block, hblock, hclaim, _⟩ | ⟨_, c', block, hagain, rep⟩
    · exact absurd ⟨block, hblock, hclaim⟩ notFull
    · have come' := come.next (Nat.le_add_right _ _) rep
      refine ⟨_, come', come'.blockStart ▸ before _, fun fuel => ?_⟩
      have hfuel : fuel + (n + 1) = fuel + 1 + n := by omega
      rw [hfuel, hloop, loop_again fuel hagain]

/-- After a round the first block has been dropped. -/
lemma Come.dropped {st : Cache nameLen × UInt32} (indexed : Indexed c)
    (come : Come c name s (firstNumber s + 2 ^ 20) st) :
    st.1.dataMap (nameSeqToKey name st.2) = none := by
  have hfirst : st.2 = blockAt (firstNumber s) := by
    rw [come.blockStart, ← UInt32.toNat_inj, blockAt, blockAt, UInt32.toNat_ofNat',
      UInt32.toNat_ofNat']
    omega
  have hcount : firstNumber s + 2 ^ 20 - firstNumber s = (2 ^ 20 - 1) + 1 := by omega
  have split : earlier name s (firstNumber s + 2 ^ 20) = ⟨nameSeqToKey name st.2⟩ ::
      (List.range' (firstNumber s + 1) (2 ^ 20 - 1)).map fun j => ⟨nameSeqToKey name (blockAt j)⟩ := by
    rw [earlier, hcount, List.range'_succ, List.map_cons, hfirst]
  have apart : ∀ j k, firstNumber s ≤ k → k ≤ j → j < firstNumber s + 2 ^ 20 →
      (⟨nameSeqToKey name (blockAt j)⟩ : Node) = ⟨nameSeqToKey name (blockAt k)⟩ → j = k := by
    intro j k _ hkj hj h
    exact blockAt_injective hkj (by omega) (nameSeqToKey_injective (congrArg Node.blockIter h)).2
  apply come.indexed.absent
  rw [come.order, split, enterAll, List.foldl_cons]
  apply not_mem_enterAll_of_many maxBlockNum_pos
  · exact enter_nodup _ indexed.once
  · exact enter_length_le maxBlockNum_pos _ indexed.bounded
  · refine List.Nodup.map_on (fun j hj k hk h => ?_) List.nodup_range'
    rw [List.mem_range'_1] at hj hk
    rcases Nat.le_total k j with hkj | hjk
    · exact apart j k (by omega) hkj (by omega) h
    · exact (apart k j (by omega) hjk (by omega) h.symm).symm
  · intro hmem
    obtain ⟨j, hj, h⟩ := List.mem_map.mp hmem
    rw [List.mem_range'_1] at hj
    rw [hfirst] at h
    have := apart j (firstNumber s) (Nat.le_refl _) (by omega) (by omega) h
    omega
  · rw [List.length_map, List.length_range', maxBlockNum]
    omega

/-- Below the last block nothing wraps, and the rounds are bounded. -/
lemma insert_returns_of_below (below : e.toNat ≤ 2 ^ 32 - 4096) (dataBuf : Buffer) :
    (BlockCache.insert c name s e dataBuf).isSome := by
  have hlen : blockLen.toNat = 4096 := rfl
  apply Option.isSome_iff_exists.mpr
  apply loop_returns (fun _ => True) (fun st => (e.toNat - st.2.toNat + 4095) / 4096) _ trivial
  · have hlt := e.toNat_lt
    rw [blockBudget]
    omega
  · rintro ⟨c₁, b⟩ ⟨c₂, b'⟩ - hpass
    have moved : b < e ∧ b' = b + blockLen := by
      rw [insertPass] at hpass
      simp only at hpass
      split at hpass
      · rename_i before
        refine ⟨before, ?_⟩
        split at hpass
        · cases hpass
          rfl
        · split at hpass
          · cases hpass
          · cases hpass
            rfl
      · cases hpass
    obtain ⟨before, rfl⟩ := moved
    rw [UInt32.lt_iff_toNat_lt] at before
    have hnext : (b + blockLen).toNat = b.toNat + 4096 := by
      rw [toNat_add_small (by omega), hlen]
    refine ⟨trivial, ?_⟩
    simp only [hnext]
    omega

/-- An insert that comes to the last block returns only from a full one: after a round of the
offset space its own blocks have been dropped, and are added anew for ever. -/
theorem insert_isSome_iff (indexed : Indexed c) (dataBuf : Buffer) :
    (BlockCache.insert c name s e dataBuf).isSome ↔ Returnable c name s e := by
  by_cases top : 2 ^ 32 - 4096 < e.toNat
  · by_cases blocked : ∃ k, firstNumber s ≤ k ∧ k < firstNumber s + 2 ^ 20 ∧ FullAt c name s e k
    · refine iff_of_true ?_ (.inr blocked)
      classical
      obtain ⟨hk, hround, hfull⟩ := Nat.find_spec blocked
      obtain ⟨n, hn⟩ := Nat.exists_eq_add_of_le hk
      rw [hn] at hround hfull
      have inRound : n ≤ 2 ^ 20 := by omega
      have room : ∀ j, firstNumber s ≤ j → j < firstNumber s + n → ¬ FullAt c name s e j :=
        fun j hj hjn full => Nat.find_min blocked (by omega) ⟨hj, by omega, full⟩
      obtain ⟨⟨c₁, b⟩, come, hb, hloop⟩ := come_rounds indexed top dataBuf inRound room
      obtain ⟨block, hblock, hclaim⟩ := (come.fullAt_iff hround).mp hfull
      have hbudget : blockBudget = (2 ^ 20 - n) + 1 + n := by
        rw [blockBudget]
        omega
      rcases insertPass_replaced come.indexed hb dataBuf with
        ⟨_, _, _, c', _, hleave, _⟩ | ⟨hroom, _⟩
      · rw [BlockCache.insert, hbudget, hloop, loop_leave _ hleave]
        rfl
      · rw [hroom block hblock] at hclaim
        cases hclaim
    · refine iff_of_false ?_ fun h => h.elim (by omega) blocked
      obtain ⟨⟨c₁, b⟩, come, hb, hloop⟩ := come_rounds indexed top dataBuf (Nat.le_refl (2 ^ 20))
        fun j hj hjn full => blocked ⟨j, hj, hjn, full⟩
      have hbudget : blockBudget = 1 + 2 ^ 20 := Nat.add_comm _ _
      rcases insertPass_replaced come.indexed hb dataBuf with
        ⟨block, hblock, _⟩ | ⟨_, c', _, hagain, _⟩
      · rw [come.dropped indexed] at hblock
        cases hblock
      · rw [BlockCache.insert, hbudget, hloop, loop_again 0 hagain]
        exact Bool.false_ne_true
  · exact iff_of_true (insert_returns_of_below (by omega) dataBuf) (.inl (by omega))

/-- A non-empty part of `[s, e)`. -/
def Part (s e : UInt32) (seg : IntcpSeg) : Prop :=
  s ≤ seg.rangeStart ∧ seg.rangeStart < seg.rangeEnd ∧ seg.rangeEnd ≤ e

def totalLength (segs : List IntcpSeg) : Nat :=
  (segs.map fun seg => seg.rangeEnd.toNat - seg.rangeStart.toNat).sum

/-- `request` takes the range. -/
def Accepting (cb : IntcpTransCB F nameLen) : Prop := ¬ cb.intBufBytes.toUInt32 ≥ intcpIntbMax

instance (cb : IntcpTransCB F nameLen) : Decidable (Accepting cb) :=
  inferInstanceAs (Decidable (¬ _))

/-- What was appended to the buffer of `cb`: parts of `[s, e)`, of all its bytes if it was
accepted. -/
def Parted (cb : IntcpTransCB F nameLen) (s e : UInt32) (cb' : IntcpTransCB F nameLen) : Prop :=
  ∃ segs, cb'.intBuf = cb.intBuf ++ segs ∧ (∀ seg ∈ segs, Part s e seg) ∧
    totalLength segs = if Accepting cb then e.toNat - s.toNat else 0

def RequestsSafely (P : Platform F) (cb : IntcpTransCB F nameLen) (s e : UInt32) : Prop :=
  ∃ fuel cb', loop (queuePass P) fuel (request P cb s e).2 = some cb' ∧ Parted cb s e cb'

/-- The last packet of the range would end inside the offset space at full length. -/
def Requestable (cb : IntcpTransCB F nameLen) (s e : UInt32) : Prop :=
  Accepting cb → s.toNat + 1449 * ((e.toNat - s.toNat - 1) / 1449 + 1) < 2 ^ 32

/-- The first `k` packets are split off. -/
structure Splitting (cb : IntcpTransCB F nameLen) (s e : UInt32) (k : Nat)
    (st : IntcpTransCB F nameLen) : Prop where
  queue : ∃ r, st.intQueue = [r] ∧ r.startByte.toNat = s.toNat + 1449 * k ∧ r.endByte = e
  parts : ∃ segs, st.intBuf = cb.intBuf ++ segs ∧ (∀ seg ∈ segs, Part s e seg) ∧
    totalLength segs = 1449 * k

/-- The packet of a range that is alone in the queue. -/
lemma queuePass_single {st : IntcpTransCB F nameLen} {r : ByteRange} (alone : st.intQueue = [r]) :
    ∃ st' seg, queuePass P st = .again st' ∧ st'.intBuf = st.intBuf ++ [seg] ∧
      seg.rangeStart = r.startByte ∧
      seg.rangeEnd = imin r.endByte (r.startByte + intcpIntRangeLimit) ∧
      st'.intQueue = if r.endByte ≤ seg.rangeEnd then []
        else [{ r with startByte := seg.rangeEnd }] := by
  rw [queuePass, alone]
  refine ⟨_, _, rfl, rfl, rfl, ?_⟩
  by_cases whole : r.endByte ≤ imin r.endByte (r.startByte + intcpIntRangeLimit)
  · simp [intSeg, coalesce, whole]
  · simp [intSeg, coalesce, whole]

lemma totalLength_snoc (segs : List IntcpSeg) (seg : IntcpSeg) :
    totalLength (segs ++ [seg]) =
      totalLength segs + (seg.rangeEnd.toNat - seg.rangeStart.toNat) := by
  simp [totalLength]

lemma toNat_intRangeLimit : intcpIntRangeLimit.toNat = 1449 := rfl

lemma toNat_packetEnd {a : UInt32} (h : a.toNat + 1449 < 2 ^ 32) :
    (a + intcpIntRangeLimit).toNat = a.toNat + 1449 := by
  rw [toNat_add_small (by rw [toNat_intRangeLimit]; exact h), toNat_intRangeLimit]

section Packets

variable {cb st : IntcpTransCB F nameLen} {s e : UInt32} {k : Nat}
  (splitting : Splitting cb s e k st)

include splitting

/-- A full packet with more bytes behind it. -/
lemma Splitting.more (more : s.toNat + 1449 * (k + 1) < e.toNat) :
    ∃ st', queuePass P st = .again st' ∧ Splitting cb s e (k + 1) st' := by
  obtain ⟨r, hqueue, hstart, hend⟩ := splitting.queue
  obtain ⟨segs, hbuf, hparts, htotal⟩ := splitting.parts
  obtain ⟨st', seg, hpass, hbuf', hseg, hsegEnd, hqueue'⟩ := queuePass_single (P := P) hqueue
  have hlt := e.toNat_lt
  have hnext : r.startByte.toNat + 1449 = s.toNat + 1449 * (k + 1) := by omega
  have hroom : r.startByte.toNat + 1449 < 2 ^ 32 := by
    rw [hnext]
    exact more.trans hlt
  have hlimit := toNat_packetEnd hroom
  have hsegEnd' : seg.rangeEnd.toNat = s.toNat + 1449 * (k + 1) := by
    rw [hsegEnd, toNat_imin, hlimit, hend]
    omega
  have hcut : ¬ r.endByte ≤ seg.rangeEnd := by
    rw [UInt32.le_iff_toNat_le, hsegEnd', hend]
    omega
  have hpart : Part s e seg := by
    simp only [Part, UInt32.le_iff_toNat_le, UInt32.lt_iff_toNat_lt, hseg, hsegEnd', hstart]
    omega
  rw [if_neg hcut] at hqueue'
  refine ⟨st', hpass, ⟨_, hqueue', hsegEnd', hend⟩, segs ++ [seg], ?_, ?_, ?_⟩
  · rw [hbuf', hbuf, List.append_assoc]
  · intro x hx
    rcases List.mem_append.mp hx with hx | hx
    · exact hparts x hx
    · rw [List.mem_singleton.mp hx]
      exact hpart
  · rw [totalLength_snoc, htotal, hsegEnd', hseg, hstart]
    omega

/-- The last packet, where it ends inside the offset space. -/
lemma Splitting.last (accepting : Accepting cb) (begun : s.toNat + 1449 * k < e.toNat)
    (last : e.toNat ≤ s.toNat + 1449 * (k + 1)) (inner : s.toNat + 1449 * (k + 1) < 2 ^ 32) :
    ∃ st', queuePass P st = .again st' ∧ queuePass P st' = .leave st' ∧ Parted cb s e st' := by
  obtain ⟨r, hqueue, hstart, hend⟩ := splitting.queue
  obtain ⟨segs, hbuf, hparts, htotal⟩ := splitting.parts
  obtain ⟨st', seg, hpass, hbuf', hseg, hsegEnd, hqueue'⟩ := queuePass_single (P := P) hqueue
  have hnext : r.startByte.toNat + 1449 = s.toNat + 1449 * (k + 1) := by omega
  have hroom : r.startByte.toNat + 1449 < 2 ^ 32 := by
    rw [hnext]
    exact inner
  have hlimit := toNat_packetEnd hroom
  have hsegEnd' : seg.rangeEnd.toNat = e.toNat := by
    rw [hsegEnd, toNat_imin, hlimit, hend]
    omega
  have hwhole : r.endByte ≤ seg.rangeEnd := by
    rw [UInt32.le_iff_toNat_le, hsegEnd', hend]
  have hpart : Part s e seg := by
    simp only [Part, UInt32.le_iff_toNat_le, UInt32.lt_iff_toNat_lt, hseg, hsegEnd', hstart]
    omega
  rw [if_pos hwhole] at hqueue'
  refine ⟨st', hpass, by rw [queuePass, hqueue'], segs ++ [seg], ?_, ?_, ?_⟩
  · rw [hbuf', hbuf, List.append_assoc]
  · intro x hx
    rcases List.mem_append.mp hx with hx | hx
    · exact hparts x hx
    · rw [List.mem_singleton.mp hx]
      exact hpart
  · rw [totalLength_snoc, htotal, hsegEnd', hseg, hstart, if_pos accepting]
    omega

/-- The last packet, where it wraps: it ends before it starts. -/
lemma Splitting.wrapped (begun : s.toNat + 1449 * k < e.toNat)
    (outer : 2 ^ 32 ≤ s.toNat + 1449 * (k + 1)) :
    ∃ st' segs seg, queuePass P st = .again st' ∧ st'.intBuf = cb.intBuf ++ segs ∧ seg ∈ segs ∧
      ¬ Part s e seg := by
  obtain ⟨r, hqueue, hstart, hend⟩ := splitting.queue
  obtain ⟨segs, hbuf, _⟩ := splitting.parts
  obtain ⟨st', seg, hpass, hbuf', hseg, hsegEnd, _⟩ := queuePass_single (P := P) hqueue
  have hlimit : (r.startByte + intcpIntRangeLimit).toNat ≤ r.startByte.toNat := by
    have hlt := e.toNat_lt
    rw [UInt32.toNat_add, toNat_intRangeLimit]
    omega
  refine ⟨st', segs ++ [seg], seg, hpass, by rw [hbuf', hbuf, List.append_assoc], by simp, ?_⟩
  rintro ⟨_, hproper, _⟩
  rw [UInt32.lt_iff_toNat_lt, hseg, hsegEnd, toNat_imin] at hproper
  omega

end Packets

/-- Up to the last packet nothing wraps. -/
lemma splitting_passes {cb start : IntcpTransCB F nameLen} {s e : UInt32}
    (queued : start.intQueue = [⟨s, e, P.raw⟩]) (buffered : start.intBuf = cb.intBuf) {k : Nat}
    (before : s.toNat + 1449 * k < e.toNat) :
    ∃ st, Passes (queuePass P) start st ∧ Splitting cb s e k st := by
  induction k with
  | zero =>
    refine ⟨start, .start, ⟨_, queued, rfl, rfl⟩, [], ?_, nofun, rfl⟩
    rw [buffered, List.append_nil]
  | succ k ih =>
    obtain ⟨st, hpasses, splitting⟩ := ih (by omega)
    obtain ⟨st', hagain, hnext⟩ := splitting.more (P := P) before
    exact ⟨st', .next hpasses hagain, hnext⟩

/-- A packet that is no part stays in the buffer. -/
lemma not_parted {cb st st' : IntcpTransCB F nameLen} {s e : UInt32} {segs : List IntcpSeg}
    {seg : IntcpSeg} (buffered : st.intBuf = cb.intBuf ++ segs) (mem : seg ∈ segs)
    (outside : ¬ Part s e seg) {fuel : Nat} (h : loop (queuePass P) fuel st = some st') :
    ¬ Parted cb s e st' := by
  have hkept : ∃ segs, st'.intBuf = cb.intBuf ++ segs ∧ seg ∈ segs := by
    refine loop_invariant
      (fun st : IntcpTransCB F nameLen => ∃ segs, st.intBuf = cb.intBuf ++ segs ∧ seg ∈ segs)
      (fun st : IntcpTransCB F nameLen => ∃ segs, st.intBuf = cb.intBuf ++ segs ∧ seg ∈ segs)
      ?_ ?_ ⟨segs, buffered, mem⟩ h
    · rintro st st' ⟨segs, hbuf, hmem⟩ hpass
      rw [queuePass] at hpass
      split at hpass <;> cases hpass
      exact ⟨_, by rw [hbuf, List.append_assoc], List.mem_append_left _ hmem⟩
    · rintro st r hst hpass
      rw [queuePass] at hpass
      split at hpass <;> cases hpass
      exact hst
  obtain ⟨segs, hbuf, hmem⟩ := hkept
  rintro ⟨segs', hbuf', hparts, _⟩
  rw [hbuf, List.append_cancel_left_eq] at hbuf'
  exact outside (hparts seg (hbuf' ▸ hmem))

theorem requestsSafely_iff (P : Platform F) {cb : IntcpTransCB F nameLen} (empty : cb.intQueue = [])
    {s e : UInt32} (proper : s < e) : RequestsSafely P cb s e ↔ Requestable cb s e := by
  have horder : ¬ e ≤ s := UInt32.not_le.mpr proper
  by_cases accepting : Accepting cb
  · have hqueued : (request P cb s e).2.intQueue = [⟨s, e, P.raw⟩] := by
      rw [request, if_neg horder, if_neg accepting]
      simp [empty]
    have hbuffered : (request P cb s e).2.intBuf = cb.intBuf := by
      rw [request, if_neg horder, if_neg accepting]
    rw [Requestable, forall_prop_of_true accepting]
    generalize hlast : (e.toNat - s.toNat - 1) / 1449 = k
    rw [UInt32.lt_iff_toNat_lt] at proper
    have hbegun : s.toNat + 1449 * k < e.toNat := by omega
    obtain ⟨st, hpasses, splitting⟩ := splitting_passes hqueued hbuffered hbegun
    have hsame := returns_iff_of_passes hpasses (Parted cb s e)
    refine hsame.trans ?_
    by_cases inner : s.toNat + 1449 * (k + 1) < 2 ^ 32
    · refine iff_of_true ?_ inner
      obtain ⟨st', hagain, hleave, hparted⟩ :=
        splitting.last (P := P) accepting hbegun (by omega) inner
      exact ⟨2, st', by rw [loop_again 1 hagain, loop_leave 0 hleave], hparted⟩
    · refine iff_of_false ?_ inner
      obtain ⟨st', segs, seg, hagain, hbuf, hmem, houtside⟩ :=
        splitting.wrapped (P := P) hbegun (by omega)
      rintro ⟨fuel, r, hr, hparted⟩
      cases fuel with
      | zero => cases hr
      | succ fuel =>
        rw [loop_again fuel hagain] at hr
        exact not_parted hbuf hmem houtside hr hparted
  · refine iff_of_true ?_ fun h => absurd h accepting
    have hrefused : (request P cb s e).2.intQueue = [] ∧
        (request P cb s e).2.intBuf = cb.intBuf := by
      rw [request, if_neg horder, if_pos (not_not.mp accepting)]
      exact ⟨empty, rfl⟩
    refine ⟨1, (request P cb s e).2, loop_leave 0 ?_, [], ?_, nofun, ?_⟩
    · rw [queuePass, hrefused.1]
    · rw [hrefused.2, List.append_nil]
    · rw [if_neg accepting]
      rfl

/-- Both are safe exactly as long as no block but the last is full and neither the last block nor
the last packet reaches the limit of the offset space. -/
theorem offsets_safe_iff (P : Platform F) (heap : Nat → Buffer) {calls : List (Call nameLen)}
    {c : Cache nameLen} (reached : run Call.step (Cache.fresh heap) calls = some c)
    (name : Vector UInt8 nameLen) (dataBuf : Buffer) {cb : IntcpTransCB F nameLen}
    (empty : cb.intQueue = []) {s e : UInt32} (proper : s < e) :
    InsertsSafely c name s e dataBuf ∧ RequestsSafely P cb s e ↔
      Insertable c name s e ∧ Requestable cb s e :=
  and_congr (insertsSafely_iff (run_indexed heap reached) proper dataBuf)
    (requestsSafely_iff P empty proper)

lemma fresh_not_full (heap : Nat → Buffer) (name : Vector UInt8 nameLen) (s e : UInt32) (k : Nat) :
    ¬ FullAt (Cache.fresh heap) name s e k := by
  rintro ⟨block, hblock, _⟩
  cases hblock

/-- A range that ends where the last block starts. -/
theorem below_last_block_safe :
    InsertsSafely (Cache.fresh fun _ _ => 0) #v[121] 4294900000 4294963200 (fun _ => 7) ∧
      RequestsSafely freeClock
        (.create freeClock .requester #v[121] (Cache.fresh fun _ _ => 0)) 4294900000 4294963200 := by
  have fresh : run Call.step (Cache.fresh fun _ _ => 0) ([] : List (Call 1)) = some _ := rfl
  refine (offsets_safe_iff freeClock (fun _ _ => 0) fresh #v[121] (fun _ => 7) rfl
    (by decide)).mpr ⟨⟨?_, fun top => absurd top (by decide)⟩, fun _ => by decide⟩
  exact fun k _ _ => fresh_not_full _ _ _ _ k

/-- The last but one byte of the offset space: the insert copies on to the end of the block and
starts over at 0, and the packet ends before it starts. -/
theorem last_bytes_unsafe :
    ¬ InsertsSafely (Cache.fresh fun _ _ => 0) #v[121] 4294967294 4294967295 (fun _ => 7) ∧
      ¬ RequestsSafely freeClock
        (.create freeClock .requester #v[121] (Cache.fresh fun _ _ => 0)) 4294967294 4294967295 := by
  have proper : (4294967294 : UInt32) < 4294967295 := by decide
  constructor
  · rw [insertsSafely_iff (fresh_wellFormed _).indexed proper]
    exact fun insertable => fresh_not_full _ _ _ _ _ (insertable.2 (by decide))
  · rw [requestsSafely_iff freeClock rfl proper]
    exact fun requestable => absurd (requestable (by decide)) (by decide)

end OffsetLimits
