import Intcp.SlotTables
import Intcp.LruOrder

/-!
# What the block cache holds

`Cached c name o v` says that the cache would deliver `v` for offset `o`. One
round of `insert` changes this view at the bytes it writes and loses nothing
but the block it may drop; `read` delivers the longest prefix of the view and
leaves the view as it is.
-/

namespace CacheContents

open FuelledLoop LittleEndian Words BlockCache SlotTables LruOrder

variable {nameLen : Nat}

/-- The cache claims offset `o` under `name`, with byte `v`. -/
def Cached (c : Cache nameLen) (name : Vector UInt8 nameLen) (o : UInt32) (v : UInt8) : Prop :=
  ∃ block, c.dataMap (nameSeqToKey name (firstBlock o)) = some block ∧
    Claims block.ranges o ∧ block.dataPtr (o - firstBlock o).toNat = v

structure WellFormed (c : Cache nameLen) : Prop where
  tables : ∀ (name : Vector UInt8 nameLen) b block, c.dataMap (nameSeqToKey name b) = some block →
    b.toNat % 4096 = 0 → Separated b.toNat block.ranges
  keys : ∀ key, (c.dataMap key).isSome ↔ (⟨key⟩ : Node) ∈ c.lruList
  once : c.lruList.Nodup
  bounded : c.lruList.length ≤ maxBlockNum
  backlinks : ∀ key block, c.dataMap key = some block → block.nodeIter = key

/-- The map and the recency list know the same blocks. -/
structure Indexed (c : Cache nameLen) : Prop where
  keys : ∀ key, (c.dataMap key).isSome ↔ (⟨key⟩ : Node) ∈ c.lruList
  once : c.lruList.Nodup
  bounded : c.lruList.length ≤ maxBlockNum
  backlinks : ∀ key block, c.dataMap key = some block → block.nodeIter = key

lemma WellFormed.indexed {c : Cache nameLen} (wf : WellFormed c) : Indexed c :=
  ⟨wf.keys, wf.once, wf.bounded, wf.backlinks⟩

lemma maxBlockNum_pos : 0 < maxBlockNum := by decide

theorem nameSeqToKey_injective {n m : Vector UInt8 nameLen} {a b : UInt32}
    (same : nameSeqToKey n a = nameSeqToKey m b) : n = m ∧ a = b := by
  have hlen : n.toList.length = m.toList.length := by simp
  obtain ⟨hname, hindex⟩ := List.append_inj same hlen
  exact ⟨Vector.toList_inj.mp hname, bytes32_injective hindex⟩

theorem fresh_wellFormed (heap : Nat → Buffer) : WellFormed (Cache.fresh heap : Cache nameLen) := by
  constructor
  · intro name b block h
    cases h
  · intro key
    simp [Cache.fresh]
  · exact List.nodup_nil
  · exact Nat.zero_le _
  · intro key block h
    cases h

lemma toNat_firstBlock (o : UInt32) : (firstBlock o).toNat = o.toNat / 4096 * 4096 := by
  have h := o.toNat_lt
  simp only [firstBlock, blockLen, UInt32.toNat_mul, UInt32.toNat_div, UInt32.reduceToNat]
  omega

lemma firstBlock_aligned (o : UInt32) : (firstBlock o).toNat % 4096 = 0 := by
  rw [toNat_firstBlock]
  omega

lemma firstBlock_eq_iff {b o : UInt32} (aligned : b.toNat % 4096 = 0) :
    firstBlock o = b ↔ b.toNat ≤ o.toNat ∧ o.toNat < b.toNat + 4096 := by
  rw [← UInt32.toNat_inj, toNat_firstBlock]
  omega

/-- The block `b` lies in the part of the offset space where `b + BLOCK_LEN` does not wrap,
and meets the range `[s, e)`. -/
structure Visits (s e b : UInt32) : Prop where
  aligned : b.toNat % 4096 = 0
  from_first : (firstBlock s).toNat ≤ b.toNat
  before_end : b < e
  proper : s < e
  top : e.toNat ≤ 2 ^ 32 - 4096

section Visits
variable {s e b : UInt32} (visit : Visits s e b)
include visit

lemma Visits.toNat_next : (b + blockLen).toNat = b.toNat + 4096 := by
  have h1 := visit.before_end
  have h2 := visit.top
  rw [UInt32.lt_iff_toNat_lt] at h1
  exact toNat_add_small (by simp only [blockLen, UInt32.reduceToNat]; omega)

lemma Visits.toNat_writeEnd : (imin (b + blockLen) e).toNat = min (b.toNat + 4096) e.toNat := by
  rw [toNat_imin, visit.toNat_next]

lemma Visits.write_proper : imax s b < imin (b + blockLen) e := by
  have h1 := visit.before_end
  have h2 := visit.proper
  have h3 := visit.from_first
  rw [toNat_firstBlock] at h3
  simp only [UInt32.lt_iff_toNat_lt, toNat_imax, visit.toNat_writeEnd] at *
  omega

/-- The bytes written in one round are those of the range that the block owns. -/
lemma Visits.written_iff (o : UInt32) :
    (imax s b ≤ o ∧ o < imin (b + blockLen) e) ↔ (s ≤ o ∧ o < e) ∧ firstBlock o = b := by
  rw [firstBlock_eq_iff visit.aligned]
  simp only [UInt32.lt_iff_toNat_lt, UInt32.le_iff_toNat_le, toNat_imax,
    visit.toNat_writeEnd]
  omega

/-- What the copy of a round leaves at the bytes of the block. -/
lemma Visits.fill_dataPtr (block : Block) (dataBuf : Buffer) {o : UInt32} (own : firstBlock o = b) :
    (block.fill b s (imax s b) (imin (b + blockLen) e) dataBuf).dataPtr (o - b).toNat =
      if s ≤ o ∧ o < e then dataBuf (o - s).toNat else block.dataPtr (o - b).toNat := by
  have hproper := visit.write_proper
  have hwritten := visit.written_iff o
  obtain ⟨hlo, hhi⟩ := (firstBlock_eq_iff visit.aligned).mp own
  have hob : (o - b).toNat = o.toNat - b.toNat :=
    Words.toNat_sub_of_le (UInt32.le_iff_toNat_le.mpr hlo)
  have hsb := toNat_imax_sub_right s b
  have hss := toNat_imax_sub_left s b
  have hlen : (imin (b + blockLen) e - imax s b).toNat =
      min (b.toNat + 4096) e.toNat - max s.toNat b.toNat := by
    rw [Words.toNat_sub_of_le (by grind), visit.toNat_writeEnd, toNat_imax]
  rw [UInt32.lt_iff_toNat_lt, toNat_imax, visit.toNat_writeEnd] at hproper
  by_cases hin : s ≤ o ∧ o < e
  · obtain ⟨hs, he⟩ := hin
    rw [if_pos ⟨hs, he⟩]
    rw [UInt32.le_iff_toNat_le] at hs
    rw [UInt32.lt_iff_toNat_lt] at he
    have hos : (o - s).toNat = o.toNat - s.toNat :=
      Words.toNat_sub_of_le (UInt32.le_iff_toNat_le.mpr hs)
    simp only [Block.fill]
    rw [Buffer.write_inside (by omega) (by omega), Buffer.advance]
    have hindex : (imax s b - s).toNat + ((o - b).toNat - (imax s b - b).toNat) = (o - s).toNat := by
      omega
    rw [hindex]
  · rw [if_neg hin]
    simp only [UInt32.le_iff_toNat_le, UInt32.lt_iff_toNat_lt] at hin
    simp only [Block.fill]
    rw [Buffer.write_outside (by omega)]

end Visits

/-- The list a new block is entered in ends with it, also after a drop. -/
lemma addBlock_last (c : Cache nameLen) (key : Key) :
    (addBlock c key).1.lruList.getLast? = some ⟨key⟩ := by
  simp only [addBlock]
  split
  · rename_i full
    cases order : c.lruList with
    | nil => exact absurd full (by simp [order, maxBlockNum])
    | cons oldest rest => simp only [dropBlock, List.cons_append, List.getLast?_concat]
  · exact List.getLast?_concat

lemma addBlock_block (c : Cache nameLen) (key : Key) :
    (addBlock c key).2.ranges = List.replicate blockSegNum Slot.zero ∧
      (addBlock c key).2.nodeIter = key := by
  have hlast := addBlock_last c key
  have hnode : (addBlock c key).2.nodeIter =
      (((addBlock c key).1.lruList.getLast?).map Node.blockIter).getD [] := rfl
  refine ⟨rfl, ?_⟩
  rw [hnode, hlast, Option.map_some, Option.getD_some]

/-- `c'` holds `block` under `key` and the blocks of `c` otherwise, as far as the
recency list has room for them. -/
structure Replaced (c : Cache nameLen) (key : Key) (block : Block) (c' : Cache nameLen) : Prop where
  order : c'.lruList = enter maxBlockNum c.lruList ⟨key⟩
  content : ∀ k, c'.dataMap k =
    if (⟨k⟩ : Node) ∈ c'.lruList then (if k = key then some block else c.dataMap k) else none
  backlink : block.nodeIter = key

lemma Indexed.absent {c : Cache nameLen} (indexed : Indexed c) {key : Key}
    (h : (⟨key⟩ : Node) ∉ c.lruList) : c.dataMap key = none := by
  have hkey := (indexed.keys key).not.mpr h
  simpa using hkey

lemma Indexed.not_mem {c : Cache nameLen} (indexed : Indexed c) {key : Key}
    (h : c.dataMap key = none) : (⟨key⟩ : Node) ∉ c.lruList := by
  intro hmem
  have := (indexed.keys key).mpr hmem
  simp [h] at this

lemma replaced_resident {c : Cache nameLen} (indexed : Indexed c) {key : Key} {old block : Block}
    (resident : c.dataMap key = some old) (backlink : block.nodeIter = key) :
    Replaced c key block { c with dataMap := c.dataMap.assign key block } := by
  have hmem : (⟨key⟩ : Node) ∈ c.lruList := (indexed.keys key).mp (by simp [resident])
  refine ⟨(enter_present hmem).symm, ?_, backlink⟩
  intro k
  by_cases hk : k = key
  · subst k
    simp [ByteMap.assign, resident, hmem]
  · by_cases hkmem : (⟨k⟩ : Node) ∈ c.lruList
    · simp [ByteMap.assign, hk, hkmem]
    · simp [ByteMap.assign, hk, hkmem, indexed.absent hkmem]

/-- A new block while the recency list has room. -/
lemma replaced_room {c : Cache nameLen} (indexed : Indexed c) {key : Key} {block : Block}
    (absent : c.dataMap key = none) (backlink : block.nodeIter = key)
    (room : c.lruList.length < maxBlockNum) :
    Replaced c key block
      { (addBlock c key).1 with dataMap := (addBlock c key).1.dataMap.assign key block } := by
  have hroom : ¬ (c.lruList ++ [(⟨key⟩ : Node)]).length > maxBlockNum := by
    simp only [List.length_append, List.length_singleton]
    omega
  refine ⟨?_, ?_, backlink⟩
  · simp only [addBlock, if_neg hroom, enter_room (indexed.not_mem absent) room]
  · intro k
    simp only [addBlock, if_neg hroom]
    by_cases hk : k = key
    · subst k
      simp [ByteMap.assign, ByteMap.setValue, absent]
    · by_cases hkmem : (⟨k⟩ : Node) ∈ c.lruList
      · simp [ByteMap.assign, ByteMap.setValue, hk, hkmem]
      · simp [ByteMap.assign, ByteMap.setValue, hk, hkmem, indexed.absent hkmem]

/-- A new block that pushes the oldest one out. -/
lemma replaced_full {c : Cache nameLen} (indexed : Indexed c) {key : Key} {block : Block}
    (absent : c.dataMap key = none) (backlink : block.nodeIter = key) {oldest : Node}
    {rest : List Node} (order : c.lruList = oldest :: rest)
    (full : maxBlockNum ≤ (oldest :: rest).length) :
    Replaced c key block
      { (addBlock c key).1 with dataMap := (addBlock c key).1.dataMap.assign key block } := by
  have hfull : (oldest :: (rest ++ [(⟨key⟩ : Node)])).length > maxBlockNum := by
    simp only [List.length_cons, List.length_append] at full ⊢
    omega
  have hnew := indexed.not_mem absent
  have honce := indexed.once
  rw [order] at hnew
  rw [order, List.nodup_cons] at honce
  have hnk : oldest ≠ ⟨key⟩ := fun h => hnew (h ▸ List.mem_cons_self)
  refine ⟨?_, ?_, backlink⟩
  · simp only [addBlock, order, List.cons_append, if_pos hfull, dropBlock]
    rw [enter_full hnew full]
  · intro k
    simp only [addBlock, order, List.cons_append, if_pos hfull, dropBlock]
    by_cases hk : k = key
    · subst k
      have hkey : ¬ key = oldest.blockIter := fun h => hnk (by rw [h])
      simp [ByteMap.assign, ByteMap.erase, ByteMap.setValue, absent, hkey]
    · by_cases hold : k = oldest.blockIter
      · have hgone : (⟨k⟩ : Node) ∉ rest ++ [⟨key⟩] := by
          have hsame : (⟨k⟩ : Node) = oldest := by rw [hold]
          rw [hsame, List.mem_append, List.mem_singleton]
          rintro (h | h)
          · exact honce.1 h
          · exact hnk h
        simp only [ByteMap.assign, ByteMap.erase, if_neg hk, if_pos hold, if_neg hgone]
      · have hne : (⟨k⟩ : Node) ≠ oldest := fun h => hold (by rw [← h])
        by_cases hkmem : (⟨k⟩ : Node) ∈ rest
        · simp [ByteMap.assign, ByteMap.erase, ByteMap.setValue, hk, hold, hkmem]
        · have hno : (⟨k⟩ : Node) ∉ c.lruList := by
            rw [order, List.mem_cons]
            tauto
          simp [ByteMap.assign, ByteMap.erase, ByteMap.setValue, hk, hold, hkmem, indexed.absent hno]

lemma replaced_added {c : Cache nameLen} (indexed : Indexed c) {key : Key} {block : Block}
    (absent : c.dataMap key = none) (backlink : block.nodeIter = key) :
    Replaced c key block
      { (addBlock c key).1 with dataMap := (addBlock c key).1.dataMap.assign key block } := by
  by_cases room : c.lruList.length < maxBlockNum
  · exact replaced_room indexed absent backlink room
  · cases order : c.lruList with
    | nil =>
      rw [order] at room
      exact absurd maxBlockNum_pos room
    | cons oldest rest =>
      rw [order] at room
      exact replaced_full indexed absent backlink order (Nat.not_lt.mp room)

lemma Replaced.indexed {c c' : Cache nameLen} (indexed : Indexed c) {key : Key} {block : Block}
    (rep : Replaced c key block c') : Indexed c' := by
  constructor
  · intro k
    rw [rep.content]
    by_cases hmem : (⟨k⟩ : Node) ∈ c'.lruList
    · by_cases hkey : k = key
      · simp [hkey]
      · have hold : (⟨k⟩ : Node) ∈ c.lruList := by
          rw [rep.order] at hmem
          rcases mem_of_mem_enter hmem with h | h
          · exact absurd (congrArg Node.blockIter h) hkey
          · exact h
        simp [hmem, hkey, (indexed.keys k).mpr hold]
    · simp [hmem]
  · rw [rep.order]
    exact enter_nodup _ indexed.once
  · rw [rep.order]
    exact enter_length_le maxBlockNum_pos _ indexed.bounded
  · intro k block' h
    rw [rep.content] at h
    split at h
    · split at h
      · rename_i hkey
        cases h
        exact rep.backlink.trans hkey.symm
      · exact indexed.backlinks k block' h
    · cases h

lemma Replaced.wellFormed {c c' : Cache nameLen} (wf : WellFormed c) {name : Vector UInt8 nameLen}
    {b : UInt32} {block : Block} (rep : Replaced c (nameSeqToKey name b) block c')
    (sep : Separated b.toNat block.ranges) : WellFormed c' := by
  have hindexed := rep.indexed wf.indexed
  refine ⟨?_, hindexed.keys, hindexed.once, hindexed.bounded, hindexed.backlinks⟩
  intro name' b' block' h aligned
  rw [rep.content] at h
  split at h
  · split at h
    · rename_i hkey
      cases h
      exact (nameSeqToKey_injective hkey).2 ▸ sep
    · exact wf.tables name' b' block' h aligned
  · cases h

/-- The new block as a view: the written bytes are new, the others as before. -/
structure Rewrites (c : Cache nameLen) (name : Vector UInt8 nameLen) (s e b : UInt32)
    (dataBuf : Buffer) (block : Block) : Prop where
  table : Separated b.toNat block.ranges
  view : ∀ o v, firstBlock o = b → ((Claims block.ranges o ∧ block.dataPtr (o - b).toNat = v) ↔
    if s ≤ o ∧ o < e then dataBuf (o - s).toNat = v else Cached c name o v)

lemma rewrites_new {c : Cache nameLen} {name : Vector UInt8 nameLen} {s e b : UInt32}
    (visit : Visits s e b) (dataBuf : Buffer) {block : Block}
    (absent : c.dataMap (nameSeqToKey name b) = none)
    (clear : block.ranges = List.replicate blockSegNum Slot.zero) :
    Rewrites c name s e b dataBuf
      ((block.claimFirst (imax s b) (imin (b + blockLen) e)).fill b s (imax s b)
        (imin (b + blockLen) e) dataBuf) := by
  have hproper := visit.write_proper
  have hnone : ∀ o, ¬ Claims (List.replicate blockSegNum Slot.zero) o := by
    rintro o ⟨r, hr, ho⟩
    exact absurd (List.eq_of_mem_replicate hr ▸ zero_empty) (holds_not_empty ho)
  have hzero : (List.replicate blockSegNum Slot.zero)[0]? = some Slot.zero := rfl
  constructor
  · simp only [Block.fill, Block.claimFirst, clear]
    refine separated_set (separated_cleared _ _) 0 _ (fun _ => ⟨?_, hproper, ?_⟩) ?_
    · simp only [toNat_imax]
      omega
    · rw [visit.toNat_writeEnd]
      omega
    · intro j q _ hq live
      exact absurd (List.eq_of_mem_replicate (List.mem_of_getElem? hq) ▸ zero_empty) live
  · intro o v own
    rw [visit.fill_dataPtr _ dataBuf own]
    simp only [Block.fill, Block.claimFirst, clear]
    rw [claims_fill hzero zero_empty, or_iff_left (hnone o), Slot.Holds, visit.written_iff]
    by_cases hin : s ≤ o ∧ o < e
    · simp only [own, hin, and_self, true_and, if_true]
    · simp only [hin, false_and, if_false, false_iff]
      rintro ⟨old, hold, _⟩
      rw [own, absent] at hold
      cases hold

lemma rewrites_resident {c : Cache nameLen} (wf : WellFormed c) {name : Vector UInt8 nameLen}
    {s e b : UInt32} (visit : Visits s e b) (dataBuf : Buffer) {block : Block}
    (resident : c.dataMap (nameSeqToKey name b) = some block)
    (room : (block.claim (imax s b) (imin (b + blockLen) e)).1 = false) :
    Rewrites c name s e b dataBuf
      ((block.claim (imax s b) (imin (b + blockLen) e)).2.fill b s (imax s b)
        (imin (b + blockLen) e) dataBuf) := by
  obtain ⟨hsep, hclaims⟩ := claimRange_spec block.lastPos
    (wf.tables name b block resident visit.aligned) (s := imax s b) (e := imin (b + blockLen) e)
    (by simp) visit.write_proper (by rw [visit.toNat_writeEnd]; omega)
  refine ⟨hsep, ?_⟩
  intro o v own
  rw [visit.fill_dataPtr _ dataBuf own]
  have hview := hclaims room o
  simp only [Block.fill, Block.claim] at hview ⊢
  rw [hview, visit.written_iff]
  by_cases hin : s ≤ o ∧ o < e
  · simp only [own, hin, and_self, true_or, true_and, if_true]
  · simp only [hin, false_and, false_or, if_false]
    constructor
    · rintro ⟨hclaim, hv⟩
      exact ⟨block, own.symm ▸ resident, hclaim, own.symm ▸ hv⟩
    · rintro ⟨old, hold, hclaim, hv⟩
      rw [own, resident] at hold
      cases hold
      exact ⟨hclaim, own ▸ hv⟩

/-- The block starts from `b` on, `n` of them. -/
def blockStarts (b : UInt32) : Nat → List UInt32
  | 0 => []
  | n + 1 => b :: blockStarts (b + blockLen) n

/-- How many blocks from `b` on the range ending at `e` meets. -/
def blockCount (b e : UInt32) : Nat := (e.toNat - b.toNat + 4095) / 4096

/-- The nodes of the blocks that an insert visits, in order. -/
def visited (name : Vector UInt8 nameLen) (s e : UInt32) : List Node :=
  (blockStarts (firstBlock s) (blockCount (firstBlock s) e)).map fun b => ⟨nameSeqToKey name b⟩

/-- No block that is resident when its turn comes has a full table. -/
def RoomFrom (c : Cache nameLen) (name : Vector UInt8 nameLen) (s e : UInt32) :
    List Node → List UInt32 → Prop
  | _, [] => True
  | order, b :: rest =>
    (∀ block, (⟨nameSeqToKey name b⟩ : Node) ∈ order →
      c.dataMap (nameSeqToKey name b) = some block →
      ¬ Full block.ranges (imax s b) (imin (b + blockLen) e)) ∧
    RoomFrom c name s e (enter maxBlockNum order ⟨nameSeqToKey name b⟩) rest

instance decidableRoomFrom (c : Cache nameLen) (name : Vector UInt8 nameLen) (s e : UInt32) :
    ∀ order bs, Decidable (RoomFrom c name s e order bs)
  | _, [] => inferInstanceAs (Decidable True)
  | order, b :: rest =>
    haveI : Decidable
        (RoomFrom c name s e (enter maxBlockNum order ⟨nameSeqToKey name b⟩) rest) :=
      decidableRoomFrom c name s e _ rest
    haveI : Decidable (∀ block, (⟨nameSeqToKey name b⟩ : Node) ∈ order →
        c.dataMap (nameSeqToKey name b) = some block →
        ¬ Full block.ranges (imax s b) (imin (b + blockLen) e)) :=
      decidable_of_iff ((⟨nameSeqToKey name b⟩ : Node) ∈ order →
        ∀ block ∈ c.dataMap (nameSeqToKey name b),
          ¬ Full block.ranges (imax s b) (imin (b + blockLen) e)) forall_comm.symm
    inferInstanceAs (Decidable (_ ∧ _))

def Room (c : Cache nameLen) (name : Vector UInt8 nameLen) (s e : UInt32) : Prop :=
  RoomFrom c name s e c.lruList (blockStarts (firstBlock s) (blockCount (firstBlock s) e))

instance (c : Cache nameLen) (name : Vector UInt8 nameLen) (s e : UInt32) :
    Decidable (Room c name s e) :=
  decidableRoomFrom c name s e _ _

lemma length_blockStarts (b : UInt32) (n : Nat) : (blockStarts b n).length = n := by
  induction n generalizing b with
  | zero => rfl
  | succ n ih => rw [blockStarts, List.length_cons, ih]

lemma mem_blockStarts {b x : UInt32} {n : Nat} (nowrap : b.toNat + n * 4096 ≤ 2 ^ 32) :
    x ∈ blockStarts b n ↔
      x.toNat % 4096 = b.toNat % 4096 ∧ b.toNat ≤ x.toNat ∧ x.toNat < b.toNat + n * 4096 := by
  induction n generalizing b with
  | zero =>
    simp only [blockStarts, List.not_mem_nil, false_iff]
    omega
  | succ n ih =>
    by_cases hn : n = 0
    · subst n
      simp only [blockStarts, List.mem_singleton, ← UInt32.toNat_inj]
      omega
    · have hnext : (b + blockLen).toNat = b.toNat + 4096 :=
        toNat_add_small (by simp only [blockLen, UInt32.reduceToNat]; omega)
      rw [blockStarts, List.mem_cons, ih (by omega), ← UInt32.toNat_inj, hnext]
      omega

/-- What a pass of the loop does to a well-formed cache. -/
lemma insertPass_again {c c' : Cache nameLen} (wf : WellFormed c) {name : Vector UInt8 nameLen}
    {s e b b' : UInt32} (visit : Visits s e b) {dataBuf : Buffer}
    (h : insertPass name s e dataBuf (c, b) = .again (c', b')) :
    b' = b + blockLen ∧ ∃ block, Replaced c (nameSeqToKey name b) block c' ∧
      Rewrites c name s e b dataBuf block := by
  simp only [insertPass, if_pos visit.before_end, ByteMap.readValue] at h
  split at h
  · rename_i absent
    cases h
    obtain ⟨hclear, hkey⟩ := addBlock_block c (nameSeqToKey name b)
    exact ⟨rfl, _, replaced_added wf.indexed absent hkey, rewrites_new visit dataBuf absent hclear⟩
  · rename_i block resident
    split at h
    · cases h
    · rename_i room
      cases h
      have hkey := wf.backlinks _ _ resident
      exact ⟨rfl, _, replaced_resident wf.indexed resident hkey,
        rewrites_resident wf visit dataBuf resident (by simpa using room)⟩

lemma insertPass_leave {c c' : Cache nameLen} (wf : WellFormed c) {name : Vector UInt8 nameLen}
    {s e b : UInt32} (visit : Visits s e b) {dataBuf : Buffer}
    (h : insertPass name s e dataBuf (c, b) = .leave c') :
    ∃ block, c.dataMap (nameSeqToKey name b) = some block ∧
      Full block.ranges (imax s b) (imin (b + blockLen) e) := by
  simp only [insertPass, if_pos visit.before_end, ByteMap.readValue] at h
  split at h
  · cases h
  · rename_i block resident
    refine ⟨block, resident, ?_⟩
    split at h
    · rename_i overflow
      exact (claimRange_overflow_iff block.lastPos
        (wf.tables name b block resident visit.aligned) (by simp) visit.write_proper
        (by rw [visit.toNat_writeEnd]; omega)).mp overflow
    · cases h

lemma insertPass_done {c : Cache nameLen} {name : Vector UInt8 nameLen} {s e b : UInt32}
    {dataBuf : Buffer} (done : e ≤ b) : insertPass name s e dataBuf (c, b) = .leave c := by
  simp only [insertPass, if_neg (UInt32.not_lt.mpr done)]

/-- The view after one round. -/
lemma cached_after_round {c c' : Cache nameLen} {name : Vector UInt8 nameLen}
    {s e b : UInt32} {dataBuf : Buffer} {block : Block}
    (rep : Replaced c (nameSeqToKey name b) block c') (rew : Rewrites c name s e b dataBuf block)
    (name' : Vector UInt8 nameLen) (o : UInt32) (v : UInt8) :
    Cached c' name' o v ↔
      (⟨nameSeqToKey name' (firstBlock o)⟩ : Node) ∈ c'.lruList ∧
        if name' = name ∧ firstBlock o = b ∧ s ≤ o ∧ o < e then dataBuf (o - s).toNat = v
        else Cached c name' o v := by
  rw [Cached, rep.content]
  by_cases hmem : (⟨nameSeqToKey name' (firstBlock o)⟩ : Node) ∈ c'.lruList
  · rw [if_pos hmem]
    by_cases hkey : nameSeqToKey name' (firstBlock o) = nameSeqToKey name b
    · obtain ⟨hname, hblock⟩ := nameSeqToKey_injective hkey
      subst name'
      have hview := rew.view o v hblock
      have hres : (⟨nameSeqToKey name b⟩ : Node) ∈ c'.lruList := hblock ▸ hmem
      simp only [hres, hblock, if_true, true_and, Option.some.injEq, exists_eq_left']
      exact hview
    · have hother : ¬ (name' = name ∧ firstBlock o = b ∧ s ≤ o ∧ o < e) := by
        rintro ⟨rfl, rfl, _⟩
        exact hkey rfl
      rw [if_neg hkey, if_neg hother]
      simp only [hmem, true_and]
      rfl
  · simp [hmem]

/-- The view `c'` that writing `[s, e)` block by block from `b` on makes of `c`. -/
structure Written (c : Cache nameLen) (name : Vector UInt8 nameLen) (s e b : UInt32) (n : Nat)
    (dataBuf : Buffer) (c' : Cache nameLen) : Prop where
  wellFormed : WellFormed c'
  order : c'.lruList = enterAll maxBlockNum c.lruList
    ((blockStarts b n).map fun b => ⟨nameSeqToKey name b⟩)
  sound : ∀ name' o v, Cached c' name' o v →
    if name' = name ∧ s ≤ o ∧ o < e ∧ b ≤ firstBlock o then dataBuf (o - s).toNat = v
    else Cached c name' o v
  fresh : ∀ o, s ≤ o → o < e → b ≤ firstBlock o →
    (⟨nameSeqToKey name (firstBlock o)⟩ : Node) ∈ c'.lruList →
    Cached c' name o (dataBuf (o - s).toNat)
  kept : ∀ name' o v, Cached c name' o v →
    (⟨nameSeqToKey name' (firstBlock o)⟩ : Node) ∈ c'.lruList →
    ¬ (name' = name ∧ s ≤ o ∧ o < e ∧ b ≤ firstBlock o) →
    ¬ (name' = name ∧ b < firstBlock o ∧ firstBlock o < e) → Cached c' name' o v

lemma roomFrom_transfer {c c' : Cache nameLen} {name : Vector UInt8 nameLen} {s e b : UInt32}
    {block : Block} (rep : Replaced c (nameSeqToKey name b) block c') {bs : List UInt32}
    (other : b ∉ bs) {order : List Node} (h : RoomFrom c name s e order bs) :
    RoomFrom c' name s e order bs := by
  induction bs generalizing order with
  | nil => trivial
  | cons x bs ih =>
    simp only [List.mem_cons, not_or] at other
    refine ⟨?_, ih other.2 h.2⟩
    intro block' hmem hblock
    refine h.1 block' hmem ?_
    rw [rep.content] at hblock
    split at hblock
    · rwa [if_neg fun hkey => other.1 (nameSeqToKey_injective hkey).2.symm] at hblock
    · cases hblock

section OneMore

variable {c c₁ c' : Cache nameLen} {name : Vector UInt8 nameLen} {s e b : UInt32} {n : Nat}
  {dataBuf : Buffer} {block : Block} (visit : Visits s e b)
  (rep : Replaced c (nameSeqToKey name b) block c₁) (rew : Rewrites c name s e b dataBuf block)
  (rest : Written c₁ name s e (b + blockLen) n dataBuf c')

include visit in
/-- A byte of the blocks ahead is in the block just written or in a later one. -/
lemma Visits.ahead_iff (o : UInt32) :
    b ≤ firstBlock o ↔ firstBlock o = b ∨ b + blockLen ≤ firstBlock o := by
  have haligned := visit.aligned
  rw [UInt32.le_iff_toNat_le, UInt32.le_iff_toNat_le, ← UInt32.toNat_inj, visit.toNat_next,
    toNat_firstBlock]
  omega

include visit in
lemma Visits.not_later {o : UInt32} (own : firstBlock o = b) : ¬ b + blockLen ≤ firstBlock o := by
  intro h
  rw [UInt32.le_iff_toNat_le, own, visit.toNat_next] at h
  omega

include visit rep rew rest in
lemma Written.cons_sound {name' : Vector UInt8 nameLen} {o : UInt32} {v : UInt8}
    (h : Cached c' name' o v) :
    if name' = name ∧ s ≤ o ∧ o < e ∧ b ≤ firstBlock o then dataBuf (o - s).toNat = v
    else Cached c name' o v := by
  have hlater := rest.sound name' o v h
  have hsplit := visit.ahead_iff o
  by_cases hin : name' = name ∧ s ≤ o ∧ o < e ∧ b + blockLen ≤ firstBlock o
  · rw [if_pos hin] at hlater
    rw [if_pos ⟨hin.1, hin.2.1, hin.2.2.1, hsplit.mpr (Or.inr hin.2.2.2)⟩]
    exact hlater
  · rw [if_neg hin] at hlater
    have hstep := ((cached_after_round rep rew name' o v).mp hlater).2
    by_cases hown : name' = name ∧ firstBlock o = b ∧ s ≤ o ∧ o < e
    · rw [if_pos hown] at hstep
      rw [if_pos ⟨hown.1, hown.2.2.1, hown.2.2.2, hsplit.mpr (Or.inl hown.2.1)⟩]
      exact hstep
    · rw [if_neg hown] at hstep
      rw [if_neg]
      · exact hstep
      · rintro ⟨hname, hs, he, hb⟩
        rcases hsplit.mp hb with hb | hb
        · exact hown ⟨hname, hb, hs, he⟩
        · exact hin ⟨hname, hs, he, hb⟩

include visit rep rew rest in
lemma Written.cons_fresh {o : UInt32} (hs : s ≤ o) (he : o < e) (hb : b ≤ firstBlock o)
    (hmem : (⟨nameSeqToKey name (firstBlock o)⟩ : Node) ∈ c'.lruList) :
    Cached c' name o (dataBuf (o - s).toNat) := by
  rcases (visit.ahead_iff o).mp hb with hb | hb
  · refine rest.kept name o _ ?_ hmem ?_ ?_
    · rw [cached_after_round rep rew, if_pos ⟨rfl, hb, hs, he⟩, rep.order, hb]
      exact ⟨mem_enter_self maxBlockNum_pos _ _, rfl⟩
    · rintro ⟨_, _, _, h⟩
      exact visit.not_later hb h
    · rintro ⟨_, h, _⟩
      exact visit.not_later hb (UInt32.le_of_lt h)
  · exact rest.fresh o hs he hb hmem

include visit rep rew rest in
lemma Written.cons_kept (count : blockCount b e = n + 1) {name' : Vector UInt8 nameLen}
    {o : UInt32} {v : UInt8} (h : Cached c name' o v)
    (hmem : (⟨nameSeqToKey name' (firstBlock o)⟩ : Node) ∈ c'.lruList)
    (hnew : ¬ (name' = name ∧ s ≤ o ∧ o < e ∧ b ≤ firstBlock o))
    (hahead : ¬ (name' = name ∧ b < firstBlock o ∧ firstBlock o < e)) : Cached c' name' o v := by
  have hnext := visit.toNat_next
  have hbe := visit.before_end
  have htop := visit.top
  rw [UInt32.lt_iff_toNat_lt] at hbe
  simp only [blockCount] at count
  have hold : Cached c₁ name' o v := by
    rw [cached_after_round rep rew, if_neg]
    · refine ⟨?_, h⟩
      rw [rest.order] at hmem
      rcases mem_of_mem_enterAll hmem with hkey | hkey
      · obtain ⟨x, hx, heq⟩ := List.mem_map.mp hkey
        obtain ⟨hname, hblock⟩ := nameSeqToKey_injective (congrArg Node.blockIter heq)
        rw [mem_blockStarts (by omega)] at hx
        refine absurd ⟨hname.symm, ?_, ?_⟩ hahead
        · rw [UInt32.lt_iff_toNat_lt, ← hblock]
          omega
        · rw [UInt32.lt_iff_toNat_lt, ← hblock]
          omega
      · exact hkey
    · rintro ⟨hname, hb, hs, he⟩
      exact hnew ⟨hname, hs, he, (visit.ahead_iff o).mpr (Or.inl hb)⟩
  refine rest.kept name' o v hold hmem ?_ ?_
  · rintro ⟨hname, hs, he, hb⟩
    exact hnew ⟨hname, hs, he, (visit.ahead_iff o).mpr (Or.inr hb)⟩
  · rintro ⟨hname, hb, he⟩
    refine hahead ⟨hname, ?_, he⟩
    rw [UInt32.lt_iff_toNat_lt] at hb ⊢
    omega

include visit rep rew rest in
/-- A round at `b` followed by the rounds from the next block on. -/
lemma Written.cons (count : blockCount b e = n + 1) :
    Written c name s e b (n + 1) dataBuf c' := by
  constructor
  · exact rest.wellFormed
  · rw [rest.order, rep.order]
    rfl
  · exact fun _ _ _ h => Written.cons_sound visit rep rew rest h
  · exact fun _ hs he hb hmem => Written.cons_fresh visit rep rew rest hs he hb hmem
  · exact fun _ _ _ h hmem hnew hahead =>
      Written.cons_kept visit rep rew rest count h hmem hnew hahead

end OneMore

lemma written_nothing {c : Cache nameLen} (wf : WellFormed c) {name : Vector UInt8 nameLen}
    {s e b : UInt32} (done : e ≤ b) (dataBuf : Buffer) : Written c name s e b 0 dataBuf c := by
  have hnone : ∀ o, o < e → ¬ b ≤ firstBlock o := by
    intro o ho hb
    rw [UInt32.le_iff_toNat_le, toNat_firstBlock] at hb
    rw [UInt32.lt_iff_toNat_lt] at ho
    rw [UInt32.le_iff_toNat_le] at done
    omega
  refine ⟨wf, rfl, ?_, ?_, ?_⟩
  · intro name' o v h
    rw [if_neg fun hin => hnone o hin.2.2.1 hin.2.2.2]
    exact h
  · intro o _ ho hb
    exact absurd hb (hnone o ho)
  · intro name' o v h _ _ _
    exact h

/-- The loop of `insert` from the block `b` on, by induction on the blocks ahead. -/
lemma insertLoop_written {name : Vector UInt8 nameLen} {s e : UInt32} (proper : s < e)
    (top : e.toNat ≤ 2 ^ 32 - 4096) (dataBuf : Buffer) (n : Nat) {c : Cache nameLen} {b : UInt32}
    (wf : WellFormed c) (aligned : b.toNat % 4096 = 0) (from_first : (firstBlock s).toNat ≤ b.toNat)
    (count : blockCount b e = n) (room : RoomFrom c name s e c.lruList (blockStarts b n)) :
    ∃ c', loop (insertPass name s e dataBuf) (n + 1) (c, b) = some c' ∧
      Written c name s e b n dataBuf c' := by
  induction n generalizing c b with
  | zero =>
    have done : e ≤ b := by
      rw [UInt32.le_iff_toNat_le]
      simp only [blockCount] at count
      omega
    exact ⟨c, loop_leave 0 (insertPass_done done), written_nothing wf done dataBuf⟩
  | succ n ih =>
    have hbe : b.toNat < e.toNat := by
      simp only [blockCount] at count
      omega
    have visit : Visits s e b :=
      ⟨aligned, from_first, UInt32.lt_iff_toNat_lt.mpr hbe, proper, top⟩
    have hnext := visit.toNat_next
    cases hpass : insertPass name s e dataBuf (c, b) with
    | leave c' =>
      obtain ⟨block, resident, full⟩ := insertPass_leave wf visit hpass
      exact absurd full (room.1 block ((wf.keys _).mp (by simp [resident])) resident)
    | again next =>
      obtain ⟨c₁, b₁⟩ := next
      obtain ⟨rfl, block, rep, rew⟩ := insertPass_again wf visit hpass
      have hahead : b ∉ blockStarts (b + blockLen) n := by
        rw [mem_blockStarts]
        · omega
        · simp only [blockCount] at count
          omega
      have hroom : RoomFrom c₁ name s e c₁.lruList (blockStarts (b + blockLen) n) := by
        rw [rep.order]
        exact roomFrom_transfer rep hahead room.2
      have hcount : blockCount (b + blockLen) e = n := by
        simp only [blockCount] at count ⊢
        omega
      obtain ⟨c', hloop, hwritten⟩ := ih (rep.wellFormed wf rew.table) (by omega) (by omega)
        hcount hroom
      refine ⟨c', ?_, Written.cons visit rep rew hwritten count⟩
      rw [loop_again (n + 1) hpass]
      exact hloop

lemma blockCount_le_budget (b e : UInt32) : blockCount b e + 1 ≤ blockBudget := by
  have h := e.toNat_lt
  simp only [blockCount, blockBudget]
  omega

lemma firstBlock_mono {s o : UInt32} (h : s ≤ o) : firstBlock s ≤ firstBlock o := by
  rw [UInt32.le_iff_toNat_le] at h ⊢
  rw [toNat_firstBlock, toNat_firstBlock]
  omega

/-- An insert that meets no full table returns, and writes its whole range. -/
theorem insert_written {c : Cache nameLen} (wf : WellFormed c) {name : Vector UInt8 nameLen}
    {s e : UInt32} (proper : s < e) (top : e.toNat ≤ 2 ^ 32 - 4096) (dataBuf : Buffer)
    (room : Room c name s e) :
    ∃ c', insert c name s e dataBuf = some c' ∧
      Written c name s e (firstBlock s) (blockCount (firstBlock s) e) dataBuf c' := by
  obtain ⟨c', hloop, hwritten⟩ := insertLoop_written proper top dataBuf _ wf
    (firstBlock_aligned s) (Nat.le_refl _) rfl room
  exact ⟨c', loop_mono (blockCount_le_budget _ _) hloop, hwritten⟩

/-- The last write wins: a cached byte is the new one inside the range, an old one outside. -/
lemma Written.sound_range {c c' : Cache nameLen} {name : Vector UInt8 nameLen} {s e : UInt32}
    {n : Nat} {dataBuf : Buffer} (written : Written c name s e (firstBlock s) n dataBuf c')
    {name' : Vector UInt8 nameLen} {o : UInt32} {v : UInt8} (h : Cached c' name' o v) :
    if name' = name ∧ s ≤ o ∧ o < e then dataBuf (o - s).toNat = v else Cached c name' o v := by
  have hview := written.sound name' o v h
  by_cases hin : name' = name ∧ s ≤ o ∧ o < e
  · rw [if_pos hin]
    rwa [if_pos ⟨hin.1, hin.2.1, hin.2.2, firstBlock_mono hin.2.1⟩] at hview
  · rw [if_neg hin]
    rwa [if_neg fun h => hin ⟨h.1, h.2.1, h.2.2.1⟩] at hview

/-- The last block of the offset space, behind which a block start wraps. -/
def topBlock : UInt32 := 4294963200

def TopFree (c : Cache nameLen) (name : Vector UInt8 nameLen) : Prop :=
  c.dataMap (nameSeqToKey name topBlock) = none

lemma not_cached_top {c : Cache nameLen} {name : Vector UInt8 nameLen} (free : TopFree c name)
    {o : UInt32} (top : 2 ^ 32 - 4096 ≤ o.toNat) (v : UInt8) : ¬ Cached c name o v := by
  rintro ⟨block, resident, _⟩
  have hlt := o.toNat_lt
  have hown : firstBlock o = topBlock := by
    rw [firstBlock_eq_iff (by decide)]
    simp only [topBlock, UInt32.reduceToNat]
    omega
  rw [hown, free] at resident
  cases resident

/-- An insert below the last block leaves it free. -/
lemma Written.topFree {c c' : Cache nameLen} {name : Vector UInt8 nameLen} {s e : UInt32}
    {dataBuf : Buffer} (wf : WellFormed c) (free : TopFree c name) (proper : s < e)
    (top : e.toNat ≤ 2 ^ 32 - 4096)
    (written : Written c name s e (firstBlock s) (blockCount (firstBlock s) e) dataBuf c') :
    TopFree c' name := by
  by_contra hsome
  have hmem := (written.wellFormed.keys _).mp (Option.isSome_iff_ne_none.mpr hsome)
  rw [written.order] at hmem
  rcases mem_of_mem_enterAll hmem with hnew | hold
  · obtain ⟨b, hb, hkey⟩ := List.mem_map.mp hnew
    have hblock := (nameSeqToKey_injective (congrArg Node.blockIter hkey)).2
    rw [UInt32.lt_iff_toNat_lt] at proper
    rw [mem_blockStarts, hblock] at hb
    all_goals simp only [blockCount, toNat_firstBlock, topBlock, UInt32.reduceToNat] at *
    all_goals omega
  · exact wf.indexed.not_mem free hold

/-- What `read` delivers: bytes of the view, and the longest prefix of the range. -/
structure Delivers (c : Cache nameLen) (name : Vector UInt8 nameLen) (s e : UInt32)
    (rd : Reading nameLen) : Prop where
  same : rd.cache.dataMap = c.dataMap
  wellFormed : WellFormed rd.cache
  within : rd.readlen ≤ e.toNat - s.toNat
  bytes : ∀ o : UInt32, s ≤ o → o.toNat < s.toNat + rd.readlen →
    Cached c name o (rd.dataBuf (o - s).toNat)
  longest : ∀ o : UInt32, o.toNat = s.toNat + rd.readlen → o < e → ∀ v, ¬ Cached c name o v

lemma updateLRU_indexed {c : Cache nameLen} (indexed : Indexed c) {key : Key} {block : Block}
    (resident : c.dataMap key = some block) : Indexed (updateLRU c block) := by
  have hmem : (⟨block.nodeIter⟩ : Node) ∈ c.lruList := by
    rw [indexed.backlinks key block resident]
    exact (indexed.keys key).mp (by simp [resident])
  constructor
  · intro k
    exact (indexed.keys k).trans (mem_refresh hmem).symm
  · exact refresh_nodup _ indexed.once
  · have hlen := refresh_length hmem
    have hbound := indexed.bounded
    simp only [refresh] at hlen
    simp only [updateLRU]
    omega
  · exact indexed.backlinks

lemma updateLRU_wellFormed {c : Cache nameLen} (wf : WellFormed c) {key : Key} {block : Block}
    (resident : c.dataMap key = some block) : WellFormed (updateLRU c block) := by
  have hindexed := updateLRU_indexed wf.indexed resident
  exact ⟨wf.tables, hindexed.keys, hindexed.once, hindexed.bounded, hindexed.backlinks⟩

lemma readEnd_spec {block : Block} (readStart dataEnd : UInt32)
    (below : ∀ r ∈ block.ranges, ¬ r.Empty → r.stop.toNat ≤ 2 ^ 32 - 4096) :
    (block.readEnd readStart dataEnd = -1 ∧ ¬ Claims block.ranges readStart) ∨
      ∃ r ∈ block.ranges, Slot.Holds r readStart ∧
        block.readEnd readStart dataEnd = imin r.stop dataEnd ∧ imin r.stop dataEnd ≠ -1 := by
  simp only [Block.readEnd]
  split
  · rename_i hfind
    refine Or.inl ⟨rfl, ?_⟩
    rintro ⟨r, hr, ho⟩
    have hno := List.find?_eq_none.mp hfind r hr
    simp only [decide_eq_true_eq, not_and] at hno
    exact hno (holds_not_empty ho) ho.1 ho.2
  · rename_i r hfind
    have hr := List.find?_some hfind
    simp only [decide_eq_true_eq] at hr
    refine Or.inr ⟨r, List.mem_of_find?_eq_some hfind, hr.2, rfl, ?_⟩
    intro h
    have hmin := congrArg UInt32.toNat h
    have hstop := below r (List.mem_of_find?_eq_some hfind) hr.1
    rw [toNat_imin] at hmin
    have hneg : (-1 : UInt32).toNat = 2 ^ 32 - 1 := by decide
    omega

/-- The state of the loop of `read` at the block `b`. -/
structure ReadInv (c : Cache nameLen) (name : Vector UInt8 nameLen) (s e : UInt32)
    (rd : Reading nameLen) (b : UInt32) : Prop where
  same : rd.cache.dataMap = c.dataMap
  wellFormed : WellFormed rd.cache
  aligned : b.toNat % 4096 = 0
  from_first : (firstBlock s).toNat ≤ b.toNat
  readlen : rd.readlen = min b.toNat e.toNat - s.toNat
  bytes : ∀ o : UInt32, s ≤ o → o < b → o < e → Cached c name o (rd.dataBuf (o - s).toNat)

/-- The bytes that one round of `read` copies are those of the block. -/
lemma read_copy {s b readEnd o : UInt32} {dataBuf dataPtr : Buffer}
    (hs : s ≤ o) (hb : b ≤ o) (lo : imax s b ≤ o) (hi : o < readEnd) :
    dataBuf.write (imax s b - s).toNat (dataPtr.advance (imax s b - b).toNat)
      (readEnd - imax s b).toNat (o - s).toNat = dataPtr (o - b).toNat := by
  have hsb := toNat_imax_sub_right s b
  have hss := toNat_imax_sub_left s b
  have hlen : (readEnd - imax s b).toNat = readEnd.toNat - max s.toNat b.toNat := by
    rw [Words.toNat_sub_of_le (by grind), toNat_imax]
  have hos := Words.toNat_sub_of_le hs
  have hob := Words.toNat_sub_of_le hb
  rw [UInt32.le_iff_toNat_le] at hs hb lo
  rw [UInt32.lt_iff_toNat_lt] at hi
  rw [toNat_imax] at lo
  rw [Buffer.write_inside (by omega) (by omega), Buffer.advance]
  have hindex : (imax s b - b).toNat + ((o - s).toNat - (imax s b - s).toNat) = (o - b).toNat := by
    omega
  rw [hindex]

lemma read_kept {s b readEnd o : UInt32} {dataBuf dataPtr : Buffer}
    (hs : s ≤ o) (hi : o < b) :
    dataBuf.write (imax s b - s).toNat (dataPtr.advance (imax s b - b).toNat)
      (readEnd - imax s b).toNat (o - s).toNat = dataBuf (o - s).toNat := by
  have hss := toNat_imax_sub_left s b
  have hos := Words.toNat_sub_of_le hs
  rw [UInt32.le_iff_toNat_le] at hs
  rw [UInt32.lt_iff_toNat_lt] at hi
  exact Buffer.write_outside (by omega)

/-- What has been copied is in the buffer. -/
lemma ReadInv.copied {c : Cache nameLen} {name : Vector UInt8 nameLen} {s e : UInt32}
    {rd : Reading nameLen} {b : UInt32} (inv : ReadInv c name s e rd b) (proper : s < e)
    {o : UInt32} (hs : s ≤ o) (ho : o.toNat < s.toNat + rd.readlen) :
    Cached c name o (rd.dataBuf (o - s).toNat) := by
  have hlen := inv.readlen
  have hfirst := inv.from_first
  rw [UInt32.lt_iff_toNat_lt] at proper
  rw [UInt32.le_iff_toNat_le] at hs
  refine inv.bytes o (UInt32.le_iff_toNat_le.mpr hs) ?_ ?_
  · rw [UInt32.lt_iff_toNat_lt]
    omega
  · rw [UInt32.lt_iff_toNat_lt]
    omega

/-- Nothing to deliver from the block: the round leaves with what there is. -/
lemma readInv_stop {c : Cache nameLen} {name : Vector UInt8 nameLen} {s e : UInt32}
    {rd : Reading nameLen} {b : UInt32} (inv : ReadInv c name s e rd b) (hbe : b < e)
    (hse : s < e) (gap : ∀ v, ¬ Cached c name (imax s b) v) : Delivers c name s e rd := by
  have hlen := inv.readlen
  have hfirst := inv.from_first
  have hproper := UInt32.lt_iff_toNat_lt.mp hse
  rw [UInt32.lt_iff_toNat_lt] at hbe
  rw [toNat_firstBlock] at hfirst
  refine ⟨inv.same, inv.wellFormed, by omega, ?_, ?_⟩
  · exact fun o hs ho => inv.copied hse hs ho
  · intro o ho _ v
    have haligned := inv.aligned
    have hstart : o = imax s b := by
      rw [← UInt32.toNat_inj, toNat_imax]
      omega
    rw [hstart]
    exact gap v

/-- The bytes there are after a slot of the block at `b` was copied. -/
lemma readInv_copied {c : Cache nameLen} {name : Vector UInt8 nameLen} {s e : UInt32}
    {rd : Reading nameLen} {b : UInt32} (inv : ReadInv c name s e rd b) {block : Block}
    (resident : c.dataMap (nameSeqToKey name b) = some block) {r : Slot} (hr : r ∈ block.ranges)
    (hold : Slot.Holds r (imax s b)) (upper : r.stop.toNat ≤ b.toNat + 4096) (o : UInt32)
    (hs : s ≤ o) (ho : o < imin r.stop e) :
    Cached c name o (rd.dataBuf.write (imax s b - s).toNat
      (block.dataPtr.advance (imax s b - b).toNat) (imin r.stop e - imax s b).toNat
      (o - s).toNat) := by
  have hend := ho
  rw [UInt32.lt_iff_toNat_lt, toNat_imin] at hend
  by_cases hb : o < b
  · rw [read_kept hs hb]
    exact inv.bytes o hs hb (UInt32.lt_iff_toNat_lt.mpr (by omega))
  · have hbo : b ≤ o := UInt32.not_lt.mp hb
    have hlo : imax s b ≤ o := by
      rw [UInt32.le_iff_toNat_le] at hs hbo ⊢
      rw [toNat_imax]
      exact Nat.max_le.mpr ⟨hs, hbo⟩
    have hstop : o < r.stop := UInt32.lt_iff_toNat_lt.mpr (by omega)
    have hbn := UInt32.le_iff_toNat_le.mp hbo
    have hown : firstBlock o = b := by
      rw [firstBlock_eq_iff inv.aligned]
      omega
    rw [read_copy hs hbo hlo ho]
    refine ⟨block, hown.symm ▸ resident, ⟨r, hr, ?_, hstop⟩, hown.symm ▸ rfl⟩
    exact UInt32.le_trans hold.1 hlo

/-- Slots never touch, so the byte at the end of a slot is not cached. -/
lemma not_cached_stop {c : Cache nameLen} {name : Vector UInt8 nameLen} {b a o : UInt32}
    {block : Block} {r : Slot} (sep : Separated b.toNat block.ranges)
    (resident : c.dataMap (nameSeqToKey name b) = some block) (aligned : b.toNat % 4096 = 0)
    (hr : r ∈ block.ranges) (hold : Slot.Holds r a) (hstop : o = r.stop) (low : b.toNat ≤ o.toNat)
    (high : o.toNat < b.toNat + 4096) (below : o.toNat < 2 ^ 32 - 4096) (v : UInt8) :
    ¬ Cached c name o v := by
  rintro ⟨block', hblock, hclaims, _⟩
  rw [(firstBlock_eq_iff aligned).mpr ⟨low, high⟩, resident] at hblock
  cases hblock
  have hnext : (o + 1).toNat = o.toNat + 1 := toNat_add_small (by simp only [UInt32.reduceToNat]; omega)
  have hrun : o + 1 ≤ r.stop := by
    refine claims_run sep hr hold ?_
    intro x hax hxo
    rw [UInt32.lt_iff_toNat_lt, hnext] at hxo
    by_cases hx : x = o
    · exact hx ▸ hclaims
    · refine ⟨r, hr, UInt32.le_trans hold.1 hax, ?_⟩
      rw [← hstop, UInt32.lt_iff_toNat_lt]
      rw [← UInt32.toNat_inj] at hx
      omega
  rw [UInt32.le_iff_toNat_le, hnext, hstop] at hrun
  omega

/-- A resident block that a read visits does not end at the top of the offset space. -/
lemma resident_below_top {c : Cache nameLen} {name : Vector UInt8 nameLen} {e b : UInt32}
    {block : Block} (top : e.toNat ≤ 2 ^ 32 - 4096 ∨ TopFree c name) (aligned : b.toNat % 4096 = 0)
    (before : b < e) (resident : c.dataMap (nameSeqToKey name b) = some block) :
    b.toNat + 4096 ≤ 2 ^ 32 - 4096 := by
  have hlt := b.toNat_lt
  rw [UInt32.lt_iff_toNat_lt] at before
  rcases top with hend | free
  · omega
  · by_contra hlarge
    have htop : b = topBlock := by
      rw [← UInt32.toNat_inj]
      simp only [topBlock, UInt32.reduceToNat]
      omega
    rw [htop, free] at resident
    cases resident

/-- The state of the loop after the part of a block up to `readEnd` was copied. -/
def copied (rd : Reading nameLen) (block : Block) (s b readEnd : UInt32) :
    Reading nameLen where
  cache := updateLRU rd.cache block
  readlen := rd.readlen + (readEnd - imax s b).toNat
  dataBuf := rd.dataBuf.write (imax s b - s).toNat (block.dataPtr.advance (imax s b - b).toNat)
    (readEnd - imax s b).toNat

/-- A pass leaves with what it has, or copies what the block at `b` has. -/
lemma readPass_moved (name : Vector UInt8 nameLen) (s e : UInt32) (rd : Reading nameLen)
    (b : UInt32) :
    readPass name s e (rd, b) = .leave rd ∨
      ∃ block, rd.cache.dataMap (nameSeqToKey name b) = some block ∧ b < e ∧
        block.readEnd (imax s b) e ≠ -1 ∧
        (readPass name s e (rd, b) = .leave (copied rd block s b (block.readEnd (imax s b) e)) ∨
          readPass name s e (rd, b) =
            .again (copied rd block s b (block.readEnd (imax s b) e), b + blockLen)) := by
  by_cases before : b < e
  · simp only [readPass, if_pos before, ByteMap.readValue]
    cases resident : rd.cache.dataMap (nameSeqToKey name b) with
    | none => exact .inl rfl
    | some block =>
      by_cases nothing : block.readEnd (imax s b) e = -1
      · exact .inl (if_pos nothing)
      · refine .inr ⟨block, rfl, before, nothing, ?_⟩
        simp only [if_neg nothing]
        split
        · exact .inl rfl
        · exact .inr rfl
  · exact .inl (if_neg before)

section Copied

variable {c : Cache nameLen} {name : Vector UInt8 nameLen} {s e b : UInt32} {rd : Reading nameLen}
  (inv : ReadInv c name s e rd b) (proper : s < e) (before : b < e) {block : Block}
  (resident : c.dataMap (nameSeqToKey name b) = some block)
  (sep : Separated b.toNat block.ranges) (below : b.toNat + 4096 ≤ 2 ^ 32 - 4096) {r : Slot}
  (hr : r ∈ block.ranges) (hold : Slot.Holds r (imax s b))

include inv proper before hold in
/-- The offset up to which there is a copy. -/
lemma copied_readlen (block : Block) : s.toNat + (copied rd block s b (imin r.stop e)).readlen =
    min r.stop.toNat e.toNat := by
  have hlen := inv.readlen
  have hfirst := inv.from_first
  have hstop := UInt32.lt_iff_toNat_lt.mp hold.2
  rw [toNat_firstBlock] at hfirst
  rw [toNat_imax] at hstop
  rw [UInt32.lt_iff_toNat_lt] at proper before
  have hcopylen : (imin r.stop e - imax s b).toNat =
      min r.stop.toNat e.toNat - max s.toNat b.toNat := by
    rw [Words.toNat_sub_of_le, toNat_imin, toNat_imax]
    rw [UInt32.le_iff_toNat_le, toNat_imin, toNat_imax]
    omega
  simp only [copied, hcopylen]
  omega

include inv proper before resident sep below hr hold in
/-- A slot that ends within the block and the range ends the read. -/
lemma copied_short (short : r.stop.toNat < e.toNat ∧ r.stop.toNat < b.toNat + 4096) :
    Delivers c name s e (copied rd block s b (imin r.stop e)) := by
  have hlen := copied_readlen inv proper before hold block
  have hin := sep.inside r hr (holds_not_empty hold)
  have hlru := updateLRU_wellFormed inv.wellFormed (inv.same.symm ▸ resident)
  have hstop := UInt32.lt_iff_toNat_lt.mp hold.2
  rw [toNat_imax] at hstop
  refine ⟨inv.same, hlru, by omega, ?_, ?_⟩
  · intro o hs ho
    refine readInv_copied inv resident hr hold hin.2.2 o hs ?_
    rw [UInt32.lt_iff_toNat_lt, toNat_imin]
    omega
  · intro o ho _ v
    have hostop : o = r.stop := by
      rw [← UInt32.toNat_inj]
      omega
    exact not_cached_stop sep resident inv.aligned hr hold hostop (by omega) (by omega) (by omega) v

include inv proper before resident sep hr hold in
/-- Otherwise the block has all that the range needs of it. -/
lemma copied_whole (whole : ¬ (r.stop.toNat < e.toNat ∧ r.stop.toNat < b.toNat + 4096))
    (hnext : (b + blockLen).toNat = b.toNat + 4096) :
    ReadInv c name s e (copied rd block s b (imin r.stop e)) (b + blockLen) := by
  have hlen := copied_readlen inv proper before hold block
  have haligned := inv.aligned
  have hfirst := inv.from_first
  have hin := sep.inside r hr (holds_not_empty hold)
  refine ⟨inv.same, ?_, by omega, by omega, by omega, ?_⟩
  · exact updateLRU_wellFormed inv.wellFormed (inv.same.symm ▸ resident)
  · intro o hs hob hoe
    refine readInv_copied inv resident hr hold hin.2.2 o hs ?_
    rw [UInt32.lt_iff_toNat_lt, hnext] at hob
    rw [UInt32.lt_iff_toNat_lt] at hoe ⊢
    rw [toNat_imin]
    omega

end Copied

lemma readPass_cases {c : Cache nameLen} (wf : WellFormed c) {name : Vector UInt8 nameLen}
    {s e : UInt32} (proper : s < e) (top : e.toNat ≤ 2 ^ 32 - 4096 ∨ TopFree c name)
    {rd : Reading nameLen} {b : UInt32} (inv : ReadInv c name s e rd b) :
    match readPass name s e (rd, b) with
    | .leave rd' => Delivers c name s e rd'
    | .again (rd', b') => ReadInv c name s e rd' b' ∧ b.toNat < b'.toNat := by
  have hsame := inv.same
  have hlen := inv.readlen
  have hfirst := inv.from_first
  rw [toNat_firstBlock] at hfirst
  by_cases hbe : b < e
  · have hproper := UInt32.lt_iff_toNat_lt.mp proper
    have hown : firstBlock (imax s b) = b := by
      rw [firstBlock_eq_iff inv.aligned, toNat_imax]
      omega
    simp only [readPass, if_pos hbe, ByteMap.readValue, hsame]
    cases resident : c.dataMap (nameSeqToKey name b) with
    | none =>
      refine readInv_stop inv hbe proper ?_
      rintro v ⟨block, hblock, _⟩
      rw [hown, resident] at hblock
      cases hblock
    | some block =>
      have sep := wf.tables name b block resident inv.aligned
      have hbelow := resident_below_top top inv.aligned hbe resident
      have hnext : (b + blockLen).toNat = b.toNat + 4096 :=
        toNat_add_small (by simp only [blockLen, UInt32.reduceToNat]; omega)
      have hstops : ∀ r ∈ block.ranges, ¬ r.Empty → r.stop.toNat ≤ 2 ^ 32 - 4096 :=
        fun r hr live => (sep.inside r hr live).2.2.trans hbelow
      rcases readEnd_spec (imax s b) e hstops with
        ⟨hend, gap⟩ | ⟨r, hr, hold, hend, hsome⟩
      · simp only [hend, if_true]
        refine readInv_stop inv hbe proper ?_
        rintro v ⟨block', hblock, hclaims, _⟩
        rw [hown, resident] at hblock
        cases hblock
        exact gap hclaims
      · have hshort : (e > imin r.stop e ∧ imin r.stop e < b + blockLen) ↔
            r.stop.toNat < e.toNat ∧ r.stop.toNat < b.toNat + 4096 := by
          rw [gt_iff_lt, UInt32.lt_iff_toNat_lt, UInt32.lt_iff_toNat_lt, toNat_imin, hnext]
          omega
        simp only [hend, if_neg hsome]
        by_cases hpart : e > imin r.stop e ∧ imin r.stop e < b + blockLen
        · simp only [if_pos hpart]
          exact copied_short inv proper hbe resident sep hbelow hr hold (hshort.mp hpart)
        · simp only [if_neg hpart]
          exact ⟨copied_whole inv proper hbe resident sep hr hold (mt hshort.mpr hpart) hnext, by omega⟩
  · simp only [readPass, if_neg hbe]
    have hproper := UInt32.lt_iff_toNat_lt.mp proper
    rw [UInt32.lt_iff_toNat_lt] at hbe
    refine ⟨hsame, inv.wellFormed, by omega, ?_, ?_⟩
    · exact fun o hs ho => inv.copied proper hs ho
    · intro o ho hoe v
      rw [UInt32.lt_iff_toNat_lt] at hoe
      omega

lemma readInv_start {c : Cache nameLen} (wf : WellFormed c) (name : Vector UInt8 nameLen)
    (s e : UInt32) (dataBuf : Buffer) : ReadInv c name s e ⟨c, 0, dataBuf⟩ (firstBlock s) := by
  refine ⟨rfl, wf, firstBlock_aligned s, Nat.le_refl _, ?_, ?_⟩
  · simp only [toNat_firstBlock]
    omega
  · intro o hs ho
    rw [UInt32.le_iff_toNat_le] at hs
    rw [UInt32.lt_iff_toNat_lt, toNat_firstBlock] at ho
    omega

/-- `read` delivers the longest prefix of its range that the view has. -/
theorem read_delivers {c : Cache nameLen} (wf : WellFormed c) (name : Vector UInt8 nameLen)
    {s e : UInt32} (proper : s < e) (top : e.toNat ≤ 2 ^ 32 - 4096 ∨ TopFree c name)
    (dataBuf : Buffer) : Delivers c name s e (read c name s e dataBuf) := by
  have start := readInv_start wf name s e dataBuf
  obtain ⟨rd, hloop, hpost⟩ : ∃ rd, loop (readPass name s e) blockBudget
      (⟨c, 0, dataBuf⟩, firstBlock s) = some rd ∧ Delivers c name s e rd := by
    refine loop_total (fun st => ReadInv c name s e st.1 st.2) _
      (fun st => (2 ^ 32 - st.2.toNat) / 4096) ?_ ?_ start ?_
    · rintro ⟨rd, b⟩ ⟨rd', b'⟩ inv hpass
      have hcases := readPass_cases wf proper top inv
      rw [hpass] at hcases
      have h1 := inv.aligned
      have h2 := hcases.1.aligned
      have h3 := b'.toNat_lt
      simp only at h1 h2 hcases ⊢
      exact ⟨hcases.1, by omega⟩
    · rintro ⟨rd, b⟩ rd' inv hpass
      have hcases := readPass_cases wf proper top inv
      rwa [hpass] at hcases
    · simp only [blockBudget]
      omega
  simp only [BlockCache.read, hloop, Option.getD_some]
  exact hpost

/-- A range that ends before its first block delivers nothing. -/
lemma read_nothing {c : Cache nameLen} {name : Vector UInt8 nameLen} {s e : UInt32}
    (before : e ≤ firstBlock s) (dataBuf : Buffer) : read c name s e dataBuf = ⟨c, 0, dataBuf⟩ := by
  have hpass : readPass name s e (⟨c, 0, dataBuf⟩, firstBlock s) = .leave ⟨c, 0, dataBuf⟩ := by
    simp only [readPass, if_neg (UInt32.not_lt.mpr before)]
  have hloop := loop_leave (2 ^ 20) hpass
  rw [BlockCache.read, blockBudget, hloop, Option.getD_some]

end CacheContents
