import Intcp.CacheContents
import Intcp.StepRuns

/-!
# The cache as a last-write-wins map

Runs of `insert` and `read` on one cache. A byte that a read delivers is the
one the latest insert supplied, and an insert is read back whole, as long as no
insert meets a block whose slot table is full or pushes a block of its own
range out of the cache.
-/

namespace LastWrite

open FuelledLoop StepRuns Words BlockCache SlotTables LruOrder CacheContents

variable {nameLen : Nat}

inductive Call (nameLen : Nat) where
  | insert (name : Vector UInt8 nameLen) (dataStart dataEnd : UInt32) (dataBuf : Buffer)
  | read (name : Vector UInt8 nameLen) (dataStart dataEnd : UInt32) (dataBuf : Buffer)

def Call.step : Call nameLen → Cache nameLen → Option (Cache nameLen)
  | .insert name s e dataBuf, c => BlockCache.insert c name s e dataBuf
  | .read name s e dataBuf, c => some (BlockCache.read c name s e dataBuf).cache

def Proper (dataStart dataEnd : UInt32) : Prop :=
  dataStart < dataEnd ∧ dataEnd.toNat ≤ 2 ^ 32 - 4096

instance (s e : UInt32) : Decidable (Proper s e) := inferInstanceAs (Decidable (_ ∧ _))

/-- A range that reaches into the last block has no end for the block starts, which wrap:
its insert comes back from a full slot table or not at all. -/
theorem insert_top_overflows {c c' : Cache nameLen} {name : Vector UInt8 nameLen} {s e : UInt32}
    {dataBuf : Buffer} (top : 2 ^ 32 - 4096 < e.toNat)
    (h : BlockCache.insert c name s e dataBuf = some c') :
    ∃ st, Passes (insertPass name s e dataBuf) (c, firstBlock s) st ∧
      ∃ block, st.1.dataMap (nameSeqToKey name st.2) = some block ∧
        (block.claim (imax s st.2) (imin (st.2 + blockLen) e)).1 = true := by
  refine loop_invariant (fun st : Cache nameLen × UInt32 =>
      Passes (insertPass name s e dataBuf) (c, firstBlock s) st ∧ st.2.toNat % 4096 = 0)
    (fun _ => ∃ st, Passes (insertPass name s e dataBuf) (c, firstBlock s) st ∧
      ∃ block, st.1.dataMap (nameSeqToKey name st.2) = some block ∧
        (block.claim (imax s st.2) (imin (st.2 + blockLen) e)).1 = true)
    ?_ ?_ ⟨.start, firstBlock_aligned s⟩ h
  · rintro st st' ⟨hpasses, haligned⟩ hpass
    refine ⟨.next hpasses hpass, ?_⟩
    have hnext : st'.2 = st.2 + blockLen := by
      simp only [insertPass] at hpass
      split at hpass
      · split at hpass
        · cases hpass
          rfl
        · split at hpass <;> cases hpass
          rfl
      · cases hpass
    rw [hnext, UInt32.toNat_add]
    simp only [blockLen, UInt32.reduceToNat]
    omega
  · rintro st c' ⟨hpasses, haligned⟩ hpass
    have hbefore : st.2 < e := by
      rw [UInt32.lt_iff_toNat_lt]
      have hlt := st.2.toNat_lt
      omega
    simp only [insertPass, if_pos hbefore, ByteMap.readValue] at hpass
    split at hpass
    · cases hpass
    · rename_i block resident
      split at hpass
      · rename_i overflow
        exact ⟨st, hpasses, block, resident, overflow⟩
      · cases hpass

def Call.Valid : Call nameLen → Prop
  | .insert _ s e _ => Proper s e
  | .read _ s e _ => Proper s e

instance : ∀ call : Call nameLen, Decidable call.Valid
  | .insert _ s e _ => inferInstanceAs (Decidable (Proper s e))
  | .read _ s e _ => inferInstanceAs (Decidable (Proper s e))

/-- The byte that the call supplies for offset `o` under `name`. -/
def Call.supplies (name : Vector UInt8 nameLen) (o : UInt32) : Call nameLen → Option UInt8
  | .insert name' s e dataBuf =>
    if name = name' ∧ s ≤ o ∧ o < e then some (dataBuf (o - s).toNat) else none
  | .read _ _ _ _ => none

/-- The byte supplied by the latest call that covers the offset. -/
def lastWrite (calls : List (Call nameLen)) (name : Vector UInt8 nameLen) (o : UInt32) :
    Option UInt8 :=
  calls.reverse.findSome? (Call.supplies name o)

/-- The inserts that do what they say: room in every slot table that the insert
meets, and, if the cache can hold the range, no block of the range dropped for
a later block of the same range. -/
def Call.Unhindered (c : Cache nameLen) : Call nameLen → Prop
  | .insert name s e _ =>
    Room c name s e ∧ (blockCount (firstBlock s) e ≤ maxBlockNum →
      SparesOwn maxBlockNum c.lruList (visited name s e))
  | .read _ _ _ _ => True

instance (c : Cache nameLen) : ∀ call : Call nameLen, Decidable (call.Unhindered c)
  | .insert _ _ _ _ => inferInstanceAs (Decidable (_ ∧ (_ → _)))
  | .read _ _ _ _ => inferInstanceAs (Decidable True)

/-- Every read of the cache delivers bytes of the latest inserts. -/
def ReadsLastWrite (calls : List (Call nameLen)) (c : Cache nameLen) : Prop :=
  ∀ name s e dataBuf, Proper s e →
    (BlockCache.read c name s e dataBuf).readlen ≤ e.toNat - s.toNat ∧
    ∀ o, s ≤ o → o.toNat < s.toNat + (BlockCache.read c name s e dataBuf).readlen →
      lastWrite calls name o = some ((BlockCache.read c name s e dataBuf).dataBuf (o - s).toNat)

/-- If the last call was an insert of a range that the cache can hold, the range is read whole. -/
def ReadsBack (calls : List (Call nameLen)) (c : Cache nameLen) : Prop :=
  ∀ name s e dataBuf out, calls.getLast? = some (.insert name s e dataBuf) →
    blockCount (firstBlock s) e ≤ maxBlockNum →
    (BlockCache.read c name s e out).readlen = e.toNat - s.toNat

lemma lastWrite_snoc (calls : List (Call nameLen)) (call : Call nameLen)
    (name : Vector UInt8 nameLen) (o : UInt32) :
    lastWrite (calls ++ [call]) name o = (call.supplies name o).or (lastWrite calls name o) := by
  rw [lastWrite, List.reverse_append, List.reverse_singleton, List.singleton_append,
    List.findSome?_cons]
  cases call.supplies name o <;> rfl

/-- What the cache holds is what was written last. -/
def Faithful (calls : List (Call nameLen)) (c : Cache nameLen) : Prop :=
  ∀ name o v, Cached c name o v → lastWrite calls name o = some v

lemma faithful_insert {c c' : Cache nameLen} {calls : List (Call nameLen)}
    {name : Vector UInt8 nameLen} {s e : UInt32} {n : Nat} {dataBuf : Buffer}
    (faithful : Faithful calls c) (written : Written c name s e (firstBlock s) n dataBuf c') :
    Faithful (calls ++ [.insert name s e dataBuf]) c' := by
  intro name' o v h
  have hview := written.sound_range h
  rw [lastWrite_snoc, Call.supplies]
  by_cases hin : name' = name ∧ s ≤ o ∧ o < e
  · rw [if_pos hin] at hview ⊢
    rw [hview, Option.some_or]
  · rw [if_neg hin] at hview ⊢
    exact faithful name' o v hview

lemma cached_of_same {c c' : Cache nameLen} (same : c'.dataMap = c.dataMap)
    {name : Vector UInt8 nameLen} {o : UInt32} {v : UInt8} :
    Cached c' name o v ↔ Cached c name o v := by
  rw [Cached, Cached, same]

lemma faithful_read {c : Cache nameLen} {calls : List (Call nameLen)}
    {name : Vector UInt8 nameLen} {s e : UInt32} {dataBuf : Buffer} {rd : Reading nameLen}
    (faithful : Faithful calls c) (delivers : Delivers c name s e rd) :
    Faithful (calls ++ [.read name s e dataBuf]) rd.cache := by
  intro name' o v h
  rw [lastWrite_snoc]
  exact faithful name' o v ((cached_of_same delivers.same).mp h)

lemma readsLastWrite_of_faithful {c : Cache nameLen} {calls : List (Call nameLen)}
    (wf : WellFormed c) (faithful : Faithful calls c) : ReadsLastWrite calls c := by
  intro name s e dataBuf proper
  have delivers := read_delivers wf name proper.1 (.inl proper.2) dataBuf
  refine ⟨delivers.within, ?_⟩
  intro o hs ho
  exact faithful name o _ (delivers.bytes o hs ho)

/-- A range all of whose bytes are cached is read whole. -/
theorem read_whole {c : Cache nameLen} (wf : WellFormed c) {name : Vector UInt8 nameLen}
    {s e : UInt32} (proper : Proper s e) (out : Buffer)
    (all : ∀ o, s ≤ o → o < e → ∃ v, Cached c name o v) :
    (BlockCache.read c name s e out).readlen = e.toNat - s.toNat := by
  have delivers := read_delivers wf name proper.1 (.inl proper.2) out
  have hwithin := delivers.within
  have htop := proper.2
  by_contra hne
  have hsum : (s + UInt32.ofNat (BlockCache.read c name s e out).readlen).toNat =
      s.toNat + (BlockCache.read c name s e out).readlen := by
    have hlt : (BlockCache.read c name s e out).readlen < 2 ^ 32 := by omega
    rw [toNat_add_small] <;> rw [UInt32.toNat_ofNat_of_lt' hlt]
    omega
  obtain ⟨v, hv⟩ := all (s + UInt32.ofNat (BlockCache.read c name s e out).readlen)
    (by rw [UInt32.le_iff_toNat_le, hsum]; omega) (by rw [UInt32.lt_iff_toNat_lt, hsum]; omega)
  exact delivers.longest _ hsum (by rw [UInt32.lt_iff_toNat_lt, hsum]; omega) v hv

lemma mem_visited {name : Vector UInt8 nameLen} {s e o : UInt32} (top : e.toNat ≤ 2 ^ 32 - 4096)
    (hs : s ≤ o) (he : o < e) : (⟨nameSeqToKey name (firstBlock o)⟩ : Node) ∈ visited name s e := by
  refine List.mem_map.mpr ⟨firstBlock o, ?_, rfl⟩
  rw [UInt32.le_iff_toNat_le] at hs
  rw [UInt32.lt_iff_toNat_lt] at he
  rw [mem_blockStarts] <;> simp only [blockCount, toNat_firstBlock] <;> omega

lemma readsBack_insert {c c' : Cache nameLen} {calls : List (Call nameLen)}
    {name : Vector UInt8 nameLen} {s e : UInt32} {dataBuf : Buffer} (proper : Proper s e)
    (spares : blockCount (firstBlock s) e ≤ maxBlockNum →
      SparesOwn maxBlockNum c.lruList (visited name s e))
    (written : Written c name s e (firstBlock s) (blockCount (firstBlock s) e) dataBuf c') :
    ReadsBack (calls ++ [.insert name s e dataBuf]) c' := by
  intro name' s' e' dataBuf' out hlast few
  rw [List.getLast?_append, List.getLast?_singleton, Option.some_or] at hlast
  cases hlast
  refine read_whole written.wellFormed proper out ?_
  intro o hs he
  refine ⟨_, written.fresh o hs he (firstBlock_mono hs) ?_⟩
  rw [written.order]
  refine mem_enterAll_of_sparesOwn maxBlockNum_pos ?_ (spares few) _ (mem_visited proper.2 hs he)
  rw [visited, List.length_map, length_blockStarts]
  exact few

/-- A run of unhindered calls keeps the cache faithful to what was written. -/
lemma run_faithful (heap : Nat → Buffer) (calls : List (Call nameLen))
    (valid : ∀ call ∈ calls, call.Valid)
    (unhindered : Along Call.step Call.Unhindered (Cache.fresh heap) calls) :
    ∃ c, run Call.step (Cache.fresh heap) calls = some c ∧ WellFormed c ∧ Faithful calls c ∧
      ReadsBack calls c := by
  induction calls using List.reverseRecOn with
  | nil =>
    refine ⟨Cache.fresh heap, rfl, fresh_wellFormed heap, ?_, ?_⟩
    · rintro name o v ⟨block, h, _⟩
      cases h
    · intro name s e dataBuf out hlast
      cases hlast
  | append_singleton calls call ih =>
    obtain ⟨hbefore, hlast⟩ := along_append.mp unhindered
    obtain ⟨c, hrun, wf, faithful, _⟩ := ih (fun call h => valid call (List.mem_append_left _ h)) hbefore
    have hvalid := valid call (by simp)
    have hcall := (hlast c hrun).1
    rw [run_snoc, hrun]
    cases call with
    | insert name s e dataBuf =>
      obtain ⟨c', hinsert, written⟩ := insert_written wf hvalid.1 hvalid.2 dataBuf hcall.1
      exact ⟨c', hinsert, written.wellFormed, faithful_insert faithful written,
        readsBack_insert hvalid hcall.2 written⟩
    | read name s e dataBuf =>
      have delivers := read_delivers wf name hvalid.1 (.inl hvalid.2) dataBuf
      refine ⟨_, rfl, delivers.wellFormed, faithful_read faithful delivers, ?_⟩
      intro name' s' e' dataBuf' out hget
      simp at hget

/-- Every run of unhindered calls returns, its reads deliver what was written
last, and an insert is read back whole right after it. -/
theorem unhindered_run_lastWrite (heap : Nat → Buffer) (calls : List (Call nameLen))
    (valid : ∀ call ∈ calls, call.Valid)
    (unhindered : Along Call.step Call.Unhindered (Cache.fresh heap) calls) :
    ∃ c, run Call.step (Cache.fresh heap) calls = some c ∧ ReadsLastWrite calls c ∧
      ReadsBack calls c := by
  obtain ⟨c, hrun, wf, faithful, back⟩ := run_faithful heap calls valid unhindered
  exact ⟨c, hrun, readsLastWrite_of_faithful wf faithful, back⟩

/-- Two inserts that overlap. -/
def overlappingCalls : List (Call 1) :=
  [.insert #v[110] 0 3 fun _ => 1, .insert #v[110] 2 5 fun _ => 2, .read #v[110] 0 5 fun _ => 0]

theorem overlapping_run_lastWrite :
    ∃ c, run Call.step (Cache.fresh fun _ _ => 0) overlappingCalls = some c ∧
      ReadsLastWrite overlappingCalls c ∧ ReadsBack overlappingCalls c :=
  unhindered_run_lastWrite _ _ (by decide) (by decide +kernel)

/-- A hundred single bytes that do not touch, and one more in the same block. -/
def crowdedCalls : List (Call 1) :=
  ((List.range 100).map fun i =>
    .insert #v[110] (UInt32.ofNat (2 * i)) (UInt32.ofNat (2 * i + 1)) fun _ => 1) ++
  [.insert #v[110] 200 201 fun _ => 7]

lemma crowded_read :
    (run Call.step (Cache.fresh fun _ _ => 0) crowdedCalls).map
      (fun c => ((BlockCache.read c #v[110] 200 201 fun _ => 0).readlen,
        (BlockCache.read c #v[110] 200 201 fun _ => 0).dataBuf 0)) = some (1, 0) := by
  decide +kernel

lemma crowded_lastWrite : lastWrite crowdedCalls #v[110] 200 = some 7 := by
  decide +kernel

/-- The 101st range is claimed without its byte being stored. -/
theorem crowded_reads_unwritten :
    (∀ call ∈ crowdedCalls, call.Valid) ∧
      ∃ c, run Call.step (Cache.fresh fun _ _ => 0) crowdedCalls = some c ∧
        ¬ ReadsLastWrite crowdedCalls c := by
  refine ⟨by decide +kernel, ?_⟩
  obtain ⟨c, hrun, hread⟩ := Option.map_eq_some_iff.mp crowded_read
  refine ⟨c, hrun, ?_⟩
  intro h
  obtain ⟨hlen, hbyte⟩ := Prod.mk.inj hread
  have hlast := (h #v[110] 200 201 (fun _ => 0) ⟨by decide, by decide⟩).2 200 (by decide)
    (by rw [hlen]; decide)
  have hindex : (200 - 200 : UInt32).toNat = 0 := by decide
  rw [crowded_lastWrite, hindex, hbyte] at hlast
  exact absurd hlast (by decide)

end LastWrite
