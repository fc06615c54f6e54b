import Intcp.LastWrite
import Mathlib.Order.Bounds.Basic
import Mathlib.Data.List.Perm.Subperm

/-!
# Reads deliver the longest resident prefix

Every run of `insert` and `read` on one cache, also of inserts that meet a full
slot table. The tables of the resident blocks stay separated, and this is why a
read, which looks at one slot of each block, delivers all there is.
-/

namespace PrefixReads

open FuelledLoop StepRuns Words BlockCache SlotTables LruOrder CacheContents LastWrite

variable {nameLen : Nat}

def MergesReturn : Prop := ∀ m : Merging, ∃ r, mergeRanges m = some r

/-- Every round but the last empties a live slot, whatever the table holds. -/
lemma mergePass_live {m t : Merging} (h : mergePass m = .again t) :
    live t.ranges < live m.ranges := by
  rw [mergePass] at h
  split at h
  · cases h
  · cases h
  · rename_i i hscan
    obtain ⟨r, hi, hlive, _⟩ := scan_hasUnion hscan
    cases h
    exact live_clear hi hlive

theorem merges_return : MergesReturn := by
  intro m
  refine loop_returns (fun _ => True) (fun t : Merging => live t.ranges) ?_ trivial
    (Nat.lt_succ_of_le List.countP_le_length)
  intro s t _ h
  exact ⟨trivial, mergePass_live h⟩

/-- Every resident block belongs to a block start, and its slots are separated. -/
def TablesSeparated (c : Cache nameLen) : Prop :=
  ∀ key block, c.dataMap key = some block →
    ∃ (name : Vector UInt8 nameLen) (b : UInt32), key = nameSeqToKey name b ∧
      b.toNat % 4096 = 0 ∧ b.toNat + 4096 < 2 ^ 32 ∧ Separated b.toNat block.ranges

structure Represented (c : Cache nameLen) : Prop where
  wellFormed : WellFormed c
  tables : TablesSeparated c

lemma fresh_represented (heap : Nat → Buffer) : Represented (Cache.fresh heap : Cache nameLen) := by
  constructor
  · exact fresh_wellFormed heap
  · intro key block h
    cases h

/-- What a round of `insert` does, whether it goes on or leaves with `overflow`. -/
lemma insertPass_round {c : Cache nameLen} (wf : WellFormed c) (name : Vector UInt8 nameLen)
    {s e b : UInt32} (visit : Visits s e b) (dataBuf : Buffer) :
    ∃ c' block, Replaced c (nameSeqToKey name b) block c' ∧ Separated b.toNat block.ranges ∧
      (insertPass name s e dataBuf (c, b) = .again (c', b + blockLen) ∨
        insertPass name s e dataBuf (c, b) = .leave c' ∧ (c.dataMap (nameSeqToKey name b)).isSome) := by
  cases hpass : insertPass name s e dataBuf (c, b) with
  | again next =>
    obtain ⟨c', b'⟩ := next
    obtain ⟨rfl, block, rep, rew⟩ := insertPass_again wf visit hpass
    exact ⟨c', block, rep, rew.table, .inl rfl⟩
  | leave c' =>
    simp only [insertPass, if_pos visit.before_end, ByteMap.readValue] at hpass
    split at hpass
    · cases hpass
    · rename_i block resident
      split at hpass
      · cases hpass
        have hkey := wf.backlinks _ _ resident
        have hsep : Separated b.toNat (block.claim (imax s b) (imin (b + blockLen) e)).2.ranges :=
          (claimRange_spec block.lastPos (wf.tables name b block resident visit.aligned) (by simp)
            visit.write_proper (by rw [visit.toNat_writeEnd]; omega)).1
        refine ⟨_, (block.claim (imax s b) (imin (b + blockLen) e)).2,
          replaced_resident wf.indexed resident hkey, hsep, .inr ⟨rfl, ?_⟩⟩
        rw [resident]
        rfl
      · cases hpass

lemma Replaced.represented {c c' : Cache nameLen} (repr : Represented c)
    {name : Vector UInt8 nameLen} {s e b : UInt32} (visit : Visits s e b) {block : Block}
    (rep : Replaced c (nameSeqToKey name b) block c') (sep : Separated b.toNat block.ranges) :
    Represented c' := by
  constructor
  · exact rep.wellFormed repr.wellFormed sep
  · intro key block' h
    rw [rep.content] at h
    split at h
    · split at h
      · rename_i hkey
        cases h
        have hbefore := UInt32.lt_iff_toNat_lt.mp visit.before_end
        have haligned := visit.aligned
        have htop := visit.top
        exact ⟨name, b, hkey, haligned, by omega, sep⟩
      · exact repr.tables key block' h
    · cases h

/-- A round of `insert` in a loop that has reached the block `b`. -/
structure Reached (s : UInt32) (c : Cache nameLen) (b : UInt32) : Prop where
  represented : Represented c
  aligned : b.toNat % 4096 = 0
  from_first : (firstBlock s).toNat ≤ b.toNat

lemma Reached.round {s e b : UInt32} {c : Cache nameLen} (reached : Reached s c b)
    (proper : Proper s e) (before : b < e) (name : Vector UInt8 nameLen) (dataBuf : Buffer) :
    ∃ c', Reached s c' (b + blockLen) ∧ (b + blockLen).toNat = b.toNat + 4096 ∧
      (insertPass name s e dataBuf (c, b) = .again (c', b + blockLen) ∨
        insertPass name s e dataBuf (c, b) = .leave c') := by
  have visit : Visits s e b :=
    ⟨reached.aligned, reached.from_first, before, proper.1, proper.2⟩
  obtain ⟨c', block, rep, sep, hpass⟩ :=
    insertPass_round reached.represented.wellFormed name visit dataBuf
  have haligned := reached.aligned
  have hfirst := reached.from_first
  have hnext := visit.toNat_next
  refine ⟨c', ⟨Replaced.represented reached.represented visit rep sep, ?_, ?_⟩, hnext,
    hpass.imp_right And.left⟩ <;> omega

/-- An insert returns from every cache of a run, full slot tables or not. -/
theorem insert_returns {c : Cache nameLen} (repr : Represented c) (name : Vector UInt8 nameLen)
    {s e : UInt32} (proper : Proper s e) (dataBuf : Buffer) :
    ∃ c', insert c name s e dataBuf = some c' ∧ Represented c' := by
  refine loop_total (fun st : Cache nameLen × UInt32 => Reached s st.1 st.2) Represented
    (fun st => blockCount st.2 e) ?_ ?_ ⟨repr, firstBlock_aligned s, Nat.le_refl _⟩ ?_
  · rintro ⟨c, b⟩ ⟨c₁, b₁⟩ (reached : Reached s c b) hpass
    by_cases before : b < e
    · obtain ⟨c', hreached, hnext, hgo | hleave⟩ := reached.round proper before name dataBuf
      · rw [hgo] at hpass
        cases hpass
        rw [UInt32.lt_iff_toNat_lt] at before
        refine ⟨hreached, ?_⟩
        simp only [blockCount]
        omega
      · rw [hleave] at hpass
        cases hpass
    · rw [insertPass_done (UInt32.not_lt.mp before)] at hpass
      cases hpass
  · rintro ⟨c, b⟩ c₁ (reached : Reached s c b) hpass
    by_cases before : b < e
    · obtain ⟨c', hreached, _, hgo | hleave⟩ := reached.round proper before name dataBuf
      · rw [hgo] at hpass
        cases hpass
      · rw [hleave] at hpass
        cases hpass
        exact hreached.represented
    · rw [insertPass_done (UInt32.not_lt.mp before)] at hpass
      cases hpass
      exact reached.represented
  · exact blockCount_le_budget _ _

lemma read_represented {c : Cache nameLen} (repr : Represented c) (name : Vector UInt8 nameLen)
    {s e : UInt32} (proper : Proper s e) (dataBuf : Buffer) :
    Represented (BlockCache.read c name s e dataBuf).cache := by
  have delivers := read_delivers repr.wellFormed name proper.1 (.inl proper.2) dataBuf
  refine ⟨delivers.wellFormed, ?_⟩
  intro key block h
  rw [delivers.same] at h
  exact repr.tables key block h

lemma step_represented {c c' : Cache nameLen} {call : Call nameLen} (repr : Represented c)
    (valid : call.Valid) (h : call.step c = some c') : Represented c' := by
  cases call with
  | insert name s e dataBuf =>
    obtain ⟨c₁, hinsert, hrepr⟩ := insert_returns repr name valid dataBuf
    rw [Call.step, hinsert] at h
    cases h
    exact hrepr
  | read name s e dataBuf =>
    cases h
    exact read_represented repr name valid dataBuf

lemma step_returns {c : Cache nameLen} {call : Call nameLen} (repr : Represented c)
    (valid : call.Valid) : ∃ c', call.step c = some c' := by
  cases call with
  | insert name s e dataBuf =>
    obtain ⟨c', hinsert, _⟩ := insert_returns repr name valid dataBuf
    exact ⟨c', hinsert⟩
  | read name s e dataBuf => exact ⟨_, rfl⟩

/-- Some slot of the resident block that owns `o` claims it. -/
def Held (c : Cache nameLen) (name : Vector UInt8 nameLen) (o : UInt32) : Prop :=
  ∃ block, c.dataMap (nameSeqToKey name (firstBlock o)) = some block ∧ Claims block.ranges o

/-- The first `k` bytes of `[s, e)` are held. -/
def Prefix (c : Cache nameLen) (name : Vector UInt8 nameLen) (s e : UInt32) (k : Nat) : Prop :=
  k ≤ e.toNat - s.toNat ∧ ∀ o, s ≤ o → o.toNat < s.toNat + k → Held c name o

/-- A read returns the length of the longest prefix held, and an `int` has room for it. -/
def ReadsPrefixes (c : Cache nameLen) : Prop :=
  ∀ name s e dataBuf, Proper s e →
    IsGreatest {k | Prefix c name s e k} (BlockCache.read c name s e dataBuf).readlen ∧
      (BlockCache.read c name s e dataBuf).readlen < 2 ^ 31

lemma held_iff_cached {c : Cache nameLen} {name : Vector UInt8 nameLen} {o : UInt32} :
    Held c name o ↔ ∃ v, Cached c name o v := by
  constructor
  · rintro ⟨block, resident, claims⟩
    exact ⟨_, block, resident, claims, rfl⟩
  · rintro ⟨v, block, resident, claims, _⟩
    exact ⟨block, resident, claims⟩

theorem read_isGreatest {c : Cache nameLen} (wf : WellFormed c) (name : Vector UInt8 nameLen)
    {s e : UInt32} (proper : Proper s e) (dataBuf : Buffer) :
    IsGreatest {k | Prefix c name s e k} (BlockCache.read c name s e dataBuf).readlen := by
  have delivers := read_delivers wf name proper.1 (.inl proper.2) dataBuf
  have hwithin := delivers.within
  have htop := proper.2
  constructor
  · refine ⟨hwithin, ?_⟩
    intro o hs ho
    exact held_iff_cached.mpr ⟨_, delivers.bytes o hs ho⟩
  · rintro k ⟨hk, all⟩
    by_contra hlt
    -- the byte behind those delivered would be one of the longer prefix
    have hsum : (s + UInt32.ofNat (BlockCache.read c name s e dataBuf).readlen).toNat =
        s.toNat + (BlockCache.read c name s e dataBuf).readlen := by
      have hsmall : (BlockCache.read c name s e dataBuf).readlen < 2 ^ 32 := by omega
      rw [toNat_add_small] <;> rw [UInt32.toNat_ofNat_of_lt' hsmall]
      omega
    obtain ⟨v, hv⟩ := held_iff_cached.mp (all _
      (by rw [UInt32.le_iff_toNat_le, hsum]; omega) (by rw [hsum]; omega))
    exact delivers.longest _ hsum (by rw [UInt32.lt_iff_toNat_lt, hsum]; omega) v hv

lemma blockStarts_nodup {b : UInt32} {n : Nat} (nowrap : b.toNat + n * 4096 ≤ 2 ^ 32) :
    (blockStarts b n).Nodup := by
  induction n generalizing b with
  | zero => exact List.nodup_nil
  | succ n ih =>
    by_cases hn : n = 0
    · subst n
      exact List.nodup_singleton b
    · have hnext : (b + blockLen).toNat = b.toNat + 4096 :=
        toNat_add_small (by simp only [blockLen, UInt32.reduceToNat]; omega)
      rw [blockStarts, List.nodup_cons, mem_blockStarts (by omega), hnext]
      exact ⟨by omega, ih (by omega)⟩

/-- A held prefix meets no more blocks than the cache has. -/
lemma prefix_fits {c : Cache nameLen} (wf : WellFormed c) {name : Vector UInt8 nameLen}
    {s e : UInt32} (proper : Proper s e) {k : Nat} (hshorter : Prefix c name s e k) :
    k ≤ maxBlockNum * 4096 := by
  have htop := proper.2
  have hlt := UInt32.lt_iff_toNat_lt.mp proper.1
  obtain ⟨hk, all⟩ := hshorter
  have hfirst := toNat_firstBlock s
  have hnowrap : (firstBlock s).toNat + (k + 4095) / 4096 * 4096 ≤ 2 ^ 32 := by omega
  have honce : ((blockStarts (firstBlock s) ((k + 4095) / 4096)).map
      fun b => (⟨nameSeqToKey name b⟩ : Node)).Nodup := by
    refine (blockStarts_nodup hnowrap).map ?_
    intro a b h
    exact (nameSeqToKey_injective (congrArg Node.blockIter h)).2
  have hsub : ((blockStarts (firstBlock s) ((k + 4095) / 4096)).map
      fun b => (⟨nameSeqToKey name b⟩ : Node)) ⊆ c.lruList := by
    intro node hnode
    obtain ⟨b, hb, rfl⟩ := List.mem_map.mp hnode
    rw [mem_blockStarts hnowrap] at hb
    have hown : firstBlock (imax s b) = b := by
      rw [firstBlock_eq_iff (by omega), toNat_imax]
      omega
    obtain ⟨block, resident, _⟩ := all (imax s b)
      (by rw [UInt32.le_iff_toNat_le, toNat_imax]; omega) (by rw [toNat_imax]; omega)
    rw [hown] at resident
    exact (wf.keys _).mp (by rw [resident]; rfl)
  have hcount := (honce.subperm hsub).length_le
  have hbound := wf.bounded
  rw [List.length_map, length_blockStarts] at hcount
  omega

lemma readsPrefixes_of_wellFormed {c : Cache nameLen} (wf : WellFormed c) : ReadsPrefixes c := by
  intro name s e dataBuf proper
  have greatest := read_isGreatest wf name proper dataBuf
  have hfits := prefix_fits wf proper greatest.1
  refine ⟨greatest, ?_⟩
  simp only [maxBlockNum] at hfits
  omega

lemma run_represented (heap : Nat → Buffer) (calls : List (Call nameLen))
    (valid : ∀ call ∈ calls, call.Valid) :
    ∃ c, run Call.step (Cache.fresh heap) calls = some c ∧ Represented c := by
  induction calls using List.reverseRecOn with
  | nil => exact ⟨Cache.fresh heap, rfl, fresh_represented heap⟩
  | append_singleton calls call ih =>
    obtain ⟨c, hrun, repr⟩ := ih fun call h => valid call (List.mem_append_left _ h)
    have hvalid := valid call (by simp)
    obtain ⟨c', hstep⟩ := step_returns repr hvalid
    rw [run_snoc, hrun]
    exact ⟨c', hstep, step_represented repr hvalid hstep⟩

/-- Every run returns, with separated tables, and reads deliver the longest prefixes.
The merge loop behind it returns for every table. -/
theorem run_readsPrefixes (heap : Nat → Buffer) (calls : List (Call nameLen))
    (valid : ∀ call ∈ calls, call.Valid) :
    MergesReturn ∧ ∃ c, run Call.step (Cache.fresh heap) calls = some c ∧
      TablesSeparated c ∧ ReadsPrefixes c := by
  obtain ⟨c, hrun, repr⟩ := run_represented heap calls valid
  exact ⟨merges_return, c, hrun, repr.tables, readsPrefixes_of_wellFormed repr.wellFormed⟩

/-- Also with a slot given up for the last insert. -/
theorem crowded_run_readsPrefixes :
    MergesReturn ∧ ∃ c, run Call.step (Cache.fresh fun _ _ => 0) crowdedCalls = some c ∧
      TablesSeparated c ∧ ReadsPrefixes c :=
  run_readsPrefixes _ _ (by decide +kernel)

end PrefixReads
