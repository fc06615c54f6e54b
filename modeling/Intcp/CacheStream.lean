import Mathlib.Data.List.GetD
import Intcp.LastWrite

/-!
# A byte stream in the cache

Inserts that continue each other under one name, each shorter than a block. The
block that the stream ends in is the newest of the cache, so it cannot be dropped
before the stream leaves it, and in every block the stream takes a single slot.
Hence no slot table fills up, and a block that is in the cache has every byte
of the stream that belongs to it.
-/

namespace CacheStream

open Words BlockCache SlotTables LruOrder CacheContents LastWrite

variable {nameLen : Nat} {name : Vector UInt8 nameLen}

/-- The node of the block that owns an offset. -/
def owner (name : Vector UInt8 nameLen) (o : UInt32) : Node := ⟨nameSeqToKey name (firstBlock o)⟩

/-- The offsets of a stream of `len` bytes that begins at `first`. -/
def Spanned (first len : Nat) (o : UInt32) : Prop := first ≤ o.toNat ∧ o.toNat < first + len

/-- A cache that other names may have used. -/
structure Untouched (c : Cache nameLen) (name : Vector UInt8 nameLen) : Prop where
  wellFormed : WellFormed c
  unused : ∀ b, c.dataMap (nameSeqToKey name b) = none

/-- What the cache has of the stream `bytes` under the name. -/
structure Stored (c : Cache nameLen) (name : Vector UInt8 nameLen) (first : Nat)
    (bytes : List UInt8) : Prop where
  wellFormed : WellFormed c
  stored : ∀ o, Spanned first bytes.length o → owner name o ∈ c.lruList →
    Cached c name o (bytes.getD (o.toNat - first) 0)
  nothingElse : ∀ o v, Cached c name o v → Spanned first bytes.length o
  owned : ∀ b, (⟨nameSeqToKey name b⟩ : Node) ∈ c.lruList →
    ∃ o, Spanned first bytes.length o ∧ b = firstBlock o
  newest : ∀ o : UInt32, o.toNat + 1 = first + bytes.length → bytes ≠ [] →
    c.lruList.getLast? = some (owner name o)
  undropped : c.lruList.length < maxBlockNum → ∀ o, Spanned first bytes.length o →
    owner name o ∈ c.lruList

lemma fresh_untouched (heap : Nat → Buffer) : Untouched (Cache.fresh heap) name :=
  ⟨fresh_wellFormed heap, fun _ => rfl⟩

lemma not_spanned_nil {first : Nat} {o : UInt32} : ¬ Spanned first ([] : List UInt8).length o := by
  rintro ⟨hlo, hhi⟩
  rw [List.length_nil] at hhi
  omega

theorem Untouched.stored {c : Cache nameLen} (h : Untouched c name) (first : Nat) :
    Stored c name first [] := by
  refine ⟨h.wellFormed, ?_, ?_, ?_, ?_, ?_⟩
  · intro o ho
    exact absurd ho not_spanned_nil
  · rintro o v ⟨block, hblock, _⟩
    rw [h.unused] at hblock
    cases hblock
  · intro b hb
    exact absurd hb (h.wellFormed.indexed.not_mem (h.unused b))
  · intro o _ hne
    exact absurd rfl hne
  · intro _ o ho
    exact absurd ho not_spanned_nil

lemma exists_pred {s : UInt32} (pos : 0 < s.toNat) : ∃ o : UInt32, o.toNat + 1 = s.toNat := by
  refine ⟨UInt32.ofNat (s.toNat - 1), ?_⟩
  rw [UInt32.toNat_ofNat_of_lt' (Nat.lt_of_le_of_lt (Nat.sub_le _ _) s.toNat_lt)]
  omega

/-- Between two offsets of a block there are only offsets of the block. -/
lemma firstBlock_between {a b o : UInt32} (lo : a.toNat ≤ o.toNat) (hi : o.toNat ≤ b.toNat)
    (same : firstBlock a = firstBlock b) : firstBlock o = firstBlock a := by
  have hsame := congrArg UInt32.toNat same
  rw [toNat_firstBlock, toNat_firstBlock] at hsame
  have hquot : a.toNat / 4096 = b.toNat / 4096 := Nat.eq_of_mul_eq_mul_right (by decide) hsame
  have hinner : o.toNat / 4096 = a.toNat / 4096 := by
    clear hsame
    omega
  rw [← UInt32.toNat_inj, toNat_firstBlock, toNat_firstBlock, hinner]

/-- A continuation shorter than a block visits the block it starts in, and perhaps the next. -/
lemma blockStarts_short {s e : UInt32} (proper : s < e) (short : e.toNat ≤ s.toNat + 4096)
    (top : e.toNat ≤ 2 ^ 32 - 4096) :
    (blockStarts (firstBlock s) (blockCount (firstBlock s) e) = [firstBlock s] ∧
      e.toNat ≤ (firstBlock s).toNat + 4096) ∨
    (blockStarts (firstBlock s) (blockCount (firstBlock s) e) =
        [firstBlock s, firstBlock s + blockLen] ∧
      (firstBlock s + blockLen).toNat = (firstBlock s).toNat + 4096 ∧
      (firstBlock s).toNat + 4096 < e.toNat) := by
  have hfirst := toNat_firstBlock s
  rw [UInt32.lt_iff_toNat_lt] at proper
  by_cases hone : e.toNat ≤ (firstBlock s).toNat + 4096
  · have hcount : blockCount (firstBlock s) e = 1 := by
      rw [blockCount]
      omega
    exact Or.inl ⟨by rw [hcount]; rfl, hone⟩
  · have hcount : blockCount (firstBlock s) e = 2 := by
      rw [blockCount]
      omega
    refine Or.inr ⟨by rw [hcount]; rfl, ?_, by omega⟩
    exact toNat_add_small (by simp only [blockLen, UInt32.reduceToNat]; omega)

/-- The blocks that a continuation visits are those of its bytes. -/
lemma mem_visited_iff {s e : UInt32} (proper : s < e) (short : e.toNat ≤ s.toNat + 4096)
    (top : e.toNat ≤ 2 ^ 32 - 4096) {b : UInt32} :
    (⟨nameSeqToKey name b⟩ : Node) ∈ visited name s e ↔ ∃ o, s ≤ o ∧ o < e ∧ b = firstBlock o := by
  constructor
  · intro hmem
    obtain ⟨b', hb', hkey⟩ := List.mem_map.mp hmem
    have hsame := (nameSeqToKey_injective (congrArg Node.blockIter hkey)).2
    have hfirst := toNat_firstBlock s
    rcases blockStarts_short proper short top with ⟨hblocks, _⟩ | ⟨hblocks, hnext, hlong⟩
    · rw [hblocks, List.mem_singleton] at hb'
      exact ⟨s, UInt32.le_refl s, proper, by rw [← hsame, hb']⟩
    · rw [hblocks, List.mem_pair] at hb'
      rcases hb' with hb' | hb'
      · exact ⟨s, UInt32.le_refl s, proper, by rw [← hsame, hb']⟩
      · have haligned : b'.toNat % 4096 = 0 := by
          rw [hb', hnext]
          omega
        refine ⟨b', ?_, ?_, ?_⟩
        · rw [UInt32.le_iff_toNat_le, hb', hnext]
          omega
        · rw [UInt32.lt_iff_toNat_lt, hb', hnext]
          exact hlong
        · rw [← hsame, eq_comm, firstBlock_eq_iff haligned]
          omega
  · rintro ⟨o, hs, he, rfl⟩
    exact mem_visited top hs he

lemma spanned_append {first : Nat} {bytes : List UInt8} {s e : UInt32}
    (at_end : s.toNat = first + bytes.length) (proper : s < e) (dataBuf : Buffer) (o : UInt32) :
    Spanned first (bytes ++ dataBuf.bytes (e.toNat - s.toNat)).length o ↔
      Spanned first bytes.length o ∨ (s ≤ o ∧ o < e) := by
  rw [UInt32.lt_iff_toNat_lt] at proper
  rw [List.length_append, Buffer.length_bytes, Spanned, Spanned, UInt32.le_iff_toNat_le,
    UInt32.lt_iff_toNat_lt]
  omega

section Continue

variable {c : Cache nameLen} {first : Nat} {bytes : List UInt8} (h : Stored c name first bytes)
  {s : UInt32} (at_end : s.toNat = first + bytes.length)

include h at_end

/-- If the block of the next byte is there, the stream ends in it and it is the newest. -/
lemma Stored.tail (present : owner name s ∈ c.lruList) :
    ∃ o, o.toNat + 1 = s.toNat ∧ firstBlock o = firstBlock s ∧ Spanned first bytes.length o ∧
      c.lruList.getLast? = some (owner name s) := by
  obtain ⟨x, ⟨hlo, hhi⟩, hblock⟩ := h.owned _ present
  obtain ⟨o, hnext⟩ := exists_pred (Nat.lt_of_le_of_lt (Nat.zero_le _) (at_end ▸ hhi))
  have hsame : firstBlock o = firstBlock s :=
    (firstBlock_between (by omega) (by omega) hblock.symm).trans hblock.symm
  have hsome : bytes ≠ [] := by
    intro hnil
    rw [hnil, List.length_nil] at hhi
    omega
  refine ⟨o, hnext, hsame, ⟨by omega, by omega⟩, ?_⟩
  rw [h.newest o (by omega) hsome, owner, owner, hsame]

/-- The blocks behind the end of the stream are not there. -/
lemma Stored.ahead {b : UInt32} (behind : s ≤ b) :
    (⟨nameSeqToKey name b⟩ : Node) ∉ c.lruList := by
  intro hmem
  obtain ⟨x, ⟨_, hhi⟩, rfl⟩ := h.owned b hmem
  rw [UInt32.le_iff_toNat_le, toNat_firstBlock] at behind
  omega

/-- The slot of the last byte ends where the stream goes on. -/
lemma Stored.tail_open {e : UInt32} (proper : s < e) {block : Block}
    (present : owner name s ∈ c.lruList)
    (resident : c.dataMap (nameSeqToKey name (firstBlock s)) = some block) :
    ¬ Full block.ranges s e := by
  intro full
  obtain ⟨o, hnext, hblock, hspan, _⟩ := h.tail at_end present
  have hpresent : owner name o ∈ c.lruList := by
    rw [owner, hblock]
    exact present
  obtain ⟨block', hres, ⟨r, hr, hlo, hhi⟩, _⟩ := h.stored o hspan hpresent
  rw [hblock, resident] at hres
  cases hres
  have hstop : ¬ s < r.stop := by
    intro hs
    have hclaims : Claims block.ranges s := by
      refine ⟨r, hr, ?_, hs⟩
      rw [UInt32.le_iff_toNat_le] at hlo ⊢
      omega
    have hspan' := h.nothingElse s _ ⟨block, resident, hclaims, rfl⟩
    have := hspan'.2
    omega
  refine (full r hr).2.1 (Or.inr ?_)
  rw [UInt32.lt_iff_toNat_lt] at hhi hstop proper
  rw [UInt32.lt_iff_toNat_lt, UInt32.le_iff_toNat_le]
  omega

theorem Stored.room {e : UInt32} (proper : s < e) (short : e.toNat ≤ s.toNat + 4096)
    (top : e.toNat ≤ 2 ^ 32 - 4096) : Room c name s e := by
  have hfirst := toNat_firstBlock s
  have hproper := UInt32.lt_iff_toNat_lt.mp proper
  have hstart : imax s (firstBlock s) = s := by
    rw [← UInt32.toNat_inj, toNat_imax]
    omega
  have hend : s < imin (firstBlock s + blockLen) e := by
    have hvisit : Visits s e (firstBlock s) :=
      ⟨firstBlock_aligned s, Nat.le_refl _, UInt32.lt_iff_toNat_lt.mpr (by omega), proper, top⟩
    have hwrite := hvisit.write_proper
    rwa [hstart] at hwrite
  have hhere : ∀ block, owner name s ∈ c.lruList →
      c.dataMap (nameSeqToKey name (firstBlock s)) = some block →
      ¬ Full block.ranges (imax s (firstBlock s)) (imin (firstBlock s + blockLen) e) := by
    intro block present resident
    rw [hstart]
    exact h.tail_open at_end hend present resident
  rcases blockStarts_short proper short top with ⟨hblocks, _⟩ | ⟨hblocks, hnext, _⟩
  · rw [Room, hblocks]
    exact ⟨hhere, trivial⟩
  · rw [Room, hblocks]
    refine ⟨hhere, ?_, trivial⟩
    intro block _ resident
    have hnone := h.ahead at_end (UInt32.le_iff_toNat_le.mpr (by omega) : s ≤ firstBlock s + blockLen)
    rw [h.wellFormed.indexed.absent hnone] at resident
    cases resident

/-- A block of old bytes that is there after a continuation was there before. -/
lemma Stored.present_before {e : UInt32} (proper : s < e) (short : e.toNat ≤ s.toNat + 4096)
    (top : e.toNat ≤ 2 ^ 32 - 4096) {o : UInt32} (old : Spanned first bytes.length o)
    (present : owner name o ∈ enterAll maxBlockNum c.lruList (visited name s e)) :
    owner name o ∈ c.lruList := by
  rcases mem_of_mem_enterAll present with hvisited | hold
  · obtain ⟨x, hs, _, hblock⟩ := (mem_visited_iff proper short top).mp hvisited
    obtain ⟨hlo, hhi⟩ := old
    have hsome : bytes ≠ [] := by
      intro hnil
      rw [hnil, List.length_nil] at hhi
      omega
    rw [UInt32.le_iff_toNat_le] at hs
    obtain ⟨l, hl⟩ := exists_pred (Nat.lt_of_le_of_lt (Nat.zero_le _) (at_end ▸ hhi))
    have hsame : firstBlock l = firstBlock o := firstBlock_between (by omega) (by omega) hblock
    have hnewest := h.newest l (by omega) hsome
    rw [owner, hsame] at hnewest
    exact List.mem_of_getLast? hnewest
  · exact hold

lemma Stored.newest_continued {e : UInt32} (proper : s < e)
    (short : e.toNat ≤ s.toNat + 4096) (top : e.toNat ≤ 2 ^ 32 - 4096) {o : UInt32}
    (last : o.toNat + 1 = e.toNat) :
    (enterAll maxBlockNum c.lruList (visited name s e)).getLast? = some (owner name o) := by
  have hfirst := toNat_firstBlock s
  have hproper := UInt32.lt_iff_toNat_lt.mp proper
  have hhere : (enter maxBlockNum c.lruList (owner name s)).getLast? = some (owner name s) := by
    refine enter_newest maxBlockNum_pos fun present => ?_
    obtain ⟨_, _, _, _, hnewest⟩ := h.tail at_end present
    exact hnewest
  rcases blockStarts_short proper short top with ⟨hblocks, hone⟩ | ⟨hblocks, hnext, htwo⟩
  · have hblock : firstBlock o = firstBlock s := by
      rw [firstBlock_eq_iff (firstBlock_aligned s)]
      omega
    rw [visited, hblocks, owner, hblock]
    exact hhere
  · have hblock : firstBlock o = firstBlock s + blockLen := by
      rw [firstBlock_eq_iff (by rw [hnext]; omega), hnext]
      omega
    have hnew : (⟨nameSeqToKey name (firstBlock s + blockLen)⟩ : Node) ∉
        enter maxBlockNum c.lruList (owner name s) := by
      intro hmem
      rcases mem_of_mem_enter hmem with hsame | hold
      · have hkey := (nameSeqToKey_injective (congrArg Node.blockIter hsame)).2
        rw [← UInt32.toNat_inj, hnext] at hkey
        omega
      · exact h.ahead at_end (UInt32.le_iff_toNat_le.mpr (by omega)) hold
    rw [visited, hblocks, owner, hblock]
    exact enter_newest maxBlockNum_pos fun present => absurd present hnew

/-- Every byte of the longer stream whose block is there. -/
lemma Stored.stored_continued {c' : Cache nameLen} {e : UInt32} (proper : s < e)
    (short : e.toNat ≤ s.toNat + 4096) (top : e.toNat ≤ 2 ^ 32 - 4096) {dataBuf : Buffer}
    (written : Written c name s e (firstBlock s) (blockCount (firstBlock s) e) dataBuf c')
    {o : UInt32} (ho : Spanned first bytes.length o ∨ (s ≤ o ∧ o < e))
    (present : owner name o ∈ c'.lruList) :
    Cached c' name o ((bytes ++ dataBuf.bytes (e.toNat - s.toNat)).getD (o.toNat - first) 0) := by
  by_cases hnew : s ≤ o ∧ o < e
  · have hfresh := written.fresh o hnew.1 hnew.2 (firstBlock_mono hnew.1) present
    have hlo := UInt32.le_iff_toNat_le.mp hnew.1
    have hhi := UInt32.lt_iff_toNat_lt.mp hnew.2
    have hindex : o.toNat - first - bytes.length = (o - s).toNat := by
      rw [Words.toNat_sub_of_le hnew.1]
      omega
    have hin : (o - s).toNat < (dataBuf.bytes (e.toNat - s.toNat)).length := by
      rw [Buffer.length_bytes, Words.toNat_sub_of_le hnew.1]
      omega
    rw [List.getD_append_right _ _ _ _ (by omega), hindex, List.getD_eq_getElem _ _ hin,
      Buffer.getElem_bytes]
    exact hfresh
  · have hold := ho.resolve_right hnew
    obtain ⟨hlo, hhi⟩ := hold
    rw [written.order] at present
    have hcached := h.stored o ⟨hlo, hhi⟩
      (h.present_before at_end proper short top ⟨hlo, hhi⟩ present)
    rw [List.getD_append _ _ _ _ (by omega)]
    refine written.kept name o _ hcached (written.order ▸ present) ?_ ?_
    · exact fun hin => hnew ⟨hin.2.1, hin.2.2.1⟩
    · rintro ⟨_, hahead, _⟩
      have hbehind : o ≤ s := UInt32.le_iff_toNat_le.mpr (by omega)
      exact absurd (firstBlock_mono hbehind) (UInt32.not_le.mpr hahead)

/-- The stream goes on in the cache. -/
theorem Stored.insert {e : UInt32} (proper : s < e) (short : e.toNat ≤ s.toNat + 4096)
    (top : e.toNat ≤ 2 ^ 32 - 4096) (dataBuf : Buffer) :
    ∃ c', BlockCache.insert c name s e dataBuf = some c' ∧
      Stored c' name first (bytes ++ dataBuf.bytes (e.toNat - s.toNat)) := by
  obtain ⟨c', hinsert, written⟩ := insert_written h.wellFormed proper top dataBuf
    (h.room at_end proper short top)
  have hspan := spanned_append at_end proper dataBuf
  refine ⟨c', hinsert, written.wellFormed, ?_, ?_, ?_, ?_, ?_⟩
  · exact fun o ho present =>
      h.stored_continued at_end proper short top written ((hspan o).mp ho) present
  · intro o v hcached
    rw [hspan]
    have hview := written.sound_range hcached
    by_cases hin : s ≤ o ∧ o < e
    · exact Or.inr hin
    · rw [if_neg fun hnew => hin hnew.2] at hview
      exact Or.inl (h.nothingElse o v hview)
  · intro b hb
    rw [written.order] at hb
    rcases mem_of_mem_enterAll hb with hvisited | hold
    · obtain ⟨o, hs, he, hblock⟩ := (mem_visited_iff proper short top).mp hvisited
      exact ⟨o, (hspan o).mpr (Or.inr ⟨hs, he⟩), hblock⟩
    · obtain ⟨o, ho, hblock⟩ := h.owned b hold
      exact ⟨o, (hspan o).mpr (Or.inl ho), hblock⟩
  · intro o hlast _
    rw [List.length_append, Buffer.length_bytes] at hlast
    rw [UInt32.lt_iff_toNat_lt] at proper
    rw [written.order]
    exact h.newest_continued at_end (UInt32.lt_iff_toNat_lt.mpr proper) short top (by omega)
  · intro hroom o ho
    rw [written.order] at hroom ⊢
    refine mem_enterAll_of_room hroom ?_
    rcases (hspan o).mp ho with hold | hnew
    · refine Or.inl (h.undropped ?_ o hold)
      exact Nat.lt_of_le_of_lt (length_le_enterAll _ _) hroom
    · exact Or.inr (mem_visited top hnew.1 hnew.2)

end Continue

/-- The block that owns the offset was not evicted. -/
def Kept (c : Cache nameLen) (name : Vector UInt8 nameLen) (o : UInt32) : Prop :=
  (c.dataMap (nameSeqToKey name (firstBlock o))).isSome

/-- Reads deliver every part of the stream whose blocks were not evicted. -/
def ReadsStream (c : Cache nameLen) (name : Vector UInt8 nameLen) (first : Nat)
    (bytes : List UInt8) : Prop :=
  ∀ s e out, first ≤ s.toNat → s < e → e.toNat ≤ first + bytes.length →
    (∀ o, s ≤ o → o < e → Kept c name o) →
    (BlockCache.read c name s e out).readlen = e.toNat - s.toNat ∧
    (BlockCache.read c name s e out).dataBuf.bytes (e.toNat - s.toNat) =
      (bytes.drop (s.toNat - first)).take (e.toNat - s.toNat)

lemma cached_unique {c : Cache nameLen} {o : UInt32} {v w : UInt8} (hv : Cached c name o v)
    (hw : Cached c name o w) : v = w := by
  obtain ⟨block, hblock, _, hbyte⟩ := hv
  obtain ⟨block', hblock', _, hbyte'⟩ := hw
  rw [hblock] at hblock'
  cases hblock'
  exact hbyte.symm.trans hbyte'

theorem Stored.readsStream {c : Cache nameLen} {first : Nat} {bytes : List UInt8}
    (h : Stored c name first bytes) (top : first + bytes.length ≤ 2 ^ 32 - 4096) :
    ReadsStream c name first bytes := by
  intro s e out hfirst proper hend kept
  have hproper := UInt32.lt_iff_toNat_lt.mp proper
  have hcached : ∀ o, s ≤ o → o < e → Cached c name o (bytes.getD (o.toNat - first) 0) := by
    intro o hs he
    have hspan : Spanned first bytes.length o := by
      rw [UInt32.le_iff_toNat_le] at hs
      rw [UInt32.lt_iff_toNat_lt] at he
      exact ⟨by omega, by omega⟩
    exact h.stored o hspan ((h.wellFormed.keys _).mp (kept o hs he))
  have hwhole := read_whole h.wellFormed ⟨proper, Nat.le_trans hend top⟩ out
    fun o hs he => ⟨_, hcached o hs he⟩
  have delivers := read_delivers h.wellFormed name proper (.inl (Nat.le_trans hend top)) out
  refine ⟨hwhole, List.ext_getElem ?_ ?_⟩
  · rw [Buffer.length_bytes, List.length_take, List.length_drop]
    omega
  · intro i hi _
    rw [Buffer.length_bytes] at hi
    have hlt := e.toNat_lt
    have hsmall : i < 2 ^ 32 := by omega
    have hoffset : (s + UInt32.ofNat i).toNat = s.toNat + i := by
      rw [toNat_add_small] <;> rw [UInt32.toNat_ofNat_of_lt' hsmall]
      omega
    have hs : s ≤ s + UInt32.ofNat i := by
      rw [UInt32.le_iff_toNat_le, hoffset]
      omega
    have he : s + UInt32.ofNat i < e := by
      rw [UInt32.lt_iff_toNat_lt, hoffset]
      omega
    have hread := delivers.bytes _ hs (by rw [hoffset, hwhole]; omega)
    have hbyte := cached_unique hread (hcached _ hs he)
    have hindex : (s + UInt32.ofNat i - s).toNat = i := by
      rw [Words.toNat_sub_of_le hs, hoffset]
      omega
    have hin : s.toNat + i - first < bytes.length := by omega
    rw [hindex, hoffset, List.getD_eq_getElem _ _ hin] at hbyte
    rw [Buffer.getElem_bytes, List.getElem_take, List.getElem_drop, hbyte]
    congr 1
    omega

lemma Stored.kept {c : Cache nameLen} {first : Nat} {bytes : List UInt8}
    (h : Stored c name first bytes) (room : c.lruList.length < maxBlockNum) {o : UInt32}
    (inside : Spanned first bytes.length o) : Kept c name o :=
  (h.wellFormed.keys _).mpr (h.undropped room o inside)

end CacheStream
