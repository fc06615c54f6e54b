import Intcp.FuelledLoop
import Intcp.Words

/-!
# The block cache

cache.h, cache.cpp and ByteMap.h. A cached byte lives in the 4096-byte block
that owns its offset, and counts as cached when one of the hundred ranges of
the block claims it. Blocks are found by a key made of the session name and the
block start, and are dropped least recently used first.

A map iterator denotes its key and a list iterator its node, since each key
occurs once in either. `heap n` is the memory that the n-th `new Block` finds.
-/

namespace BlockCache

open FuelledLoop LittleEndian Words

def blockLen : UInt32 := 4096
def blockSegNum : Nat := 100
def maxBlockNum : Nat := 20000

/-- `ranges[2i]`, `ranges[2i+1]` of a block. -/
structure Slot where
  start : UInt32
  stop : UInt32
  deriving DecidableEq, Repr

def Slot.zero : Slot := ⟨0, 0⟩

def Slot.Empty (r : Slot) : Prop := r.start = 0 ∧ r.stop = 0

instance (r : Slot) : Decidable r.Empty := inferInstanceAs (Decidable (_ ∧ _))

abbrev Key := List UInt8

def nameSeqToKey {nameLen : Nat} (name : Vector UInt8 nameLen) (index : UInt32) : Key :=
  name.toList ++ bytes32 index

structure Block where
  dataPtr : Buffer
  ranges : List Slot
  lastPos : UInt32
  nodeIter : Key
  slots : ranges.length = blockSegNum

structure Node where
  blockIter : Key
  deriving DecidableEq

abbrev ByteMap := Key → Option Block

/-- `umap.insert` leaves an existing entry as it is. -/
def ByteMap.setValue (m : ByteMap) (key : Key) (value : Block) : ByteMap :=
  fun k => if k = key then (m key).or (some value) else m k

def ByteMap.readValue (m : ByteMap) (key : Key) : Option Block := m key

def ByteMap.erase (m : ByteMap) (key : Key) : ByteMap :=
  fun k => if k = key then none else m k

/-- Writing through the shared pointer: the entry changes if it still exists. -/
def ByteMap.assign (m : ByteMap) (key : Key) (value : Block) : ByteMap :=
  fun k => if k = key then (m key).map fun _ => value else m k

structure Cache (nameLen : Nat) where
  dataMap : ByteMap
  lruList : List Node
  heap : Nat → Buffer
  born : Nat

variable {nameLen : Nat}

def Cache.fresh (heap : Nat → Buffer) : Cache nameLen where
  dataMap := fun _ => none
  lruList := []
  heap := heap
  born := 0

/-- `dropBlock(lruList.begin())` -/
def dropBlock (c : Cache nameLen) : Cache nameLen :=
  match c.lruList with
  | [] => c
  | node :: rest => { c with dataMap := c.dataMap.erase node.blockIter, lruList := rest }

/-- `nodeIter` is set last, to the end of the list as it then is. -/
def addBlock (c : Cache nameLen) (key : Key) : Cache nameLen × Block :=
  let block : Block :=
    { dataPtr := c.heap c.born, ranges := List.replicate blockSegNum Slot.zero,
      lastPos := -1, nodeIter := [], slots := by simp }
  let c := { c with
    dataMap := c.dataMap.setValue key block
    lruList := c.lruList ++ [⟨key⟩]
    born := c.born + 1 }
  let c := if c.lruList.length > maxBlockNum then dropBlock c else c
  (c, { block with nodeIter := ((c.lruList.getLast?).map Node.blockIter).getD [] })

def updateLRU (c : Cache nameLen) (block : Block) : Cache nameLen :=
  { c with lruList := c.lruList.erase ⟨block.nodeIter⟩ ++ [⟨block.nodeIter⟩] }

/-- The two sides on which a range can touch a slot without lying inside it. -/
def Slot.Touches (r : Slot) (newRangeStart newRangeEnd : UInt32) : Prop :=
  (newRangeStart < r.start ∧ r.start ≤ newRangeEnd) ∨
    (r.stop < newRangeEnd ∧ newRangeStart ≤ r.stop)

instance (r : Slot) (s e : UInt32) : Decidable (r.Touches s e) :=
  inferInstanceAs (Decidable (_ ∨ _))

def Slot.Includes (r : Slot) (newRangeStart newRangeEnd : UInt32) : Prop :=
  r.start ≤ newRangeStart ∧ newRangeEnd ≤ r.stop

instance (r : Slot) (s e : UInt32) : Decidable (r.Includes s e) :=
  inferInstanceAs (Decidable (_ ∧ _))

/-- How the scan over the slots ends: `hasUnion` at a slot, `isSubset`, or neither. -/
inductive Scan where
  | clear
  | hasUnion (i : Nat)
  | isSubset

def Scan.later : Scan → Scan
  | .hasUnion i => .hasUnion (i + 1)
  | other => other

def scan (newRangeStart newRangeEnd : UInt32) : List Slot → Scan
  | [] => .clear
  | r :: rest =>
    if r.Empty then (scan newRangeStart newRangeEnd rest).later
    else if r.Touches newRangeStart newRangeEnd then .hasUnion 0
    else if r.Includes newRangeStart newRangeEnd then .isSubset
    else (scan newRangeStart newRangeEnd rest).later

structure Merging where
  newRangeStart : UInt32
  newRangeEnd : UInt32
  ranges : List Slot

/-- One round of `while(1)`; the result says whether `isSubset` was set. -/
def mergePass (m : Merging) : Pass Merging (Bool × Merging) :=
  match scan m.newRangeStart m.newRangeEnd m.ranges with
  | .clear => .leave (false, m)
  | .isSubset => .leave (true, m)
  | .hasUnion i =>
    let r := m.ranges.getD i Slot.zero
    .again {
      newRangeStart := imin m.newRangeStart r.start
      newRangeEnd := imax m.newRangeEnd r.stop
      ranges := m.ranges.set i Slot.zero }

/-- Every round but the last empties a slot, so the rounds are one more than the slots at most. -/
def mergeRanges (m : Merging) : Option (Bool × Merging) :=
  loop mergePass (m.ranges.length + 1) m

/-- Claim `[writeStart, writeEnd)` in the slot table of a resident block. The flag
is `overflow`: the table was full and an arbitrary slot was given up. -/
def claimRange (ranges : List Slot) (lastPos writeStart writeEnd : UInt32) :
    Bool × List Slot × UInt32 :=
  match mergeRanges ⟨writeStart, writeEnd, ranges⟩ with
  | none => (false, ranges, lastPos)
  | some (true, m) => (false, m.ranges, lastPos)
  | some (false, m) =>
    let slot : Slot := ⟨m.newRangeStart, m.newRangeEnd⟩
    match m.ranges.findIdx? fun r => decide r.Empty with
    | some i => (false, m.ranges.set i slot, lastPos)
    | none =>
      let pos := (lastPos + 1) % UInt32.ofNat blockSegNum
      (true, m.ranges.set pos.toNat slot, pos)

lemma mergeRanges_length {m : Merging} {subset : Bool} {m' : Merging}
    (h : mergeRanges m = some (subset, m')) : m'.ranges.length = m.ranges.length := by
  refine loop_invariant (fun n : Merging => n.ranges.length = m.ranges.length)
    (fun r => r.2.ranges.length = m.ranges.length) ?_ ?_ rfl h
  · intro n t hn hb
    unfold mergePass at hb
    split at hb <;> cases hb
    simpa using hn
  · intro n r hn hb
    unfold mergePass at hb
    split at hb <;> cases hb <;> exact hn

lemma claimRange_length (ranges : List Slot) (lastPos writeStart writeEnd : UInt32) :
    (claimRange ranges lastPos writeStart writeEnd).2.1.length = ranges.length := by
  unfold claimRange
  split
  · rfl
  · rename_i m h
    exact mergeRanges_length h
  · rename_i m h
    have hlen := mergeRanges_length h
    split <;> simpa using hlen

def Block.claim (block : Block) (writeStart writeEnd : UInt32) : Bool × Block :=
  let r := claimRange block.ranges block.lastPos writeStart writeEnd
  (r.1, { block with
    ranges := r.2.1
    lastPos := r.2.2
    slots := (claimRange_length _ _ _ _).trans block.slots })

/-- The first slot of a new block. -/
def Block.claimFirst (block : Block) (writeStart writeEnd : UInt32) : Block :=
  { block with
    ranges := block.ranges.set 0 ⟨writeStart, writeEnd⟩
    slots := by simpa using block.slots }

/-- The `memcpy` at the end of a round of `insert`. -/
def Block.fill (block : Block) (blockStart dataStart writeStart writeEnd : UInt32)
    (dataBuf : Buffer) : Block :=
  { block with
    dataPtr := block.dataPtr.write (writeStart - blockStart).toNat
      (dataBuf.advance (writeStart - dataStart).toNat) (writeEnd - writeStart).toNat }

def firstBlock (dataStart : UInt32) : UInt32 := (dataStart / blockLen) * blockLen

/-- One round of the `for` over the blocks of `[dataStart, dataEnd)`. -/
def insertPass (name : Vector UInt8 nameLen) (dataStart dataEnd : UInt32) (dataBuf : Buffer)
    (st : Cache nameLen × UInt32) : Pass (Cache nameLen × UInt32) (Cache nameLen) :=
  let c := st.1
  let blockStart := st.2
  if blockStart < dataEnd then
    let key := nameSeqToKey name blockStart
    let writeStart := imax dataStart blockStart
    let writeEnd := imin (blockStart + blockLen) dataEnd
    match c.dataMap.readValue key with
    | none =>
      let added := addBlock c key
      let block := (added.2.claimFirst writeStart writeEnd).fill blockStart dataStart
        writeStart writeEnd dataBuf
      .again ({ added.1 with dataMap := added.1.dataMap.assign key block }, blockStart + blockLen)
    | some block =>
      let claimed := block.claim writeStart writeEnd
      if claimed.1 then
        -- `overflow` returns before the copy and before the remaining blocks
        .leave { c with dataMap := c.dataMap.assign key claimed.2 }
      else
        let block := claimed.2.fill blockStart dataStart writeStart writeEnd dataBuf
        .again ({ c with dataMap := c.dataMap.assign key block }, blockStart + blockLen)
  else .leave c

/-- There are 2^20 block starts; a loop that visits more has wrapped round. -/
def blockBudget : Nat := 2 ^ 20 + 1

/-- `Cache::insert`; it returns 0 on both of its exits. -/
def insert (c : Cache nameLen) (name : Vector UInt8 nameLen) (dataStart dataEnd : UInt32)
    (dataBuf : Buffer) : Option (Cache nameLen) :=
  loop (insertPass name dataStart dataEnd dataBuf) blockBudget (c, firstBlock dataStart)

structure Reading (nameLen : Nat) where
  cache : Cache nameLen
  readlen : Nat
  dataBuf : Buffer

/-- The end of what the block can deliver from `readStart`; -1 if nothing. -/
def Block.readEnd (block : Block) (readStart dataEnd : UInt32) : UInt32 :=
  match block.ranges.find? fun r => decide (¬ r.Empty ∧ r.start ≤ readStart ∧ readStart < r.stop) with
  | none => -1
  | some r => imin r.stop dataEnd

/-- One round of the `for` of `read`. -/
def readPass (name : Vector UInt8 nameLen) (dataStart dataEnd : UInt32)
    (st : Reading nameLen × UInt32) : Pass (Reading nameLen × UInt32) (Reading nameLen) :=
  let rd := st.1
  let blockStart := st.2
  if blockStart < dataEnd then
    match rd.cache.dataMap.readValue (nameSeqToKey name blockStart) with
    | none => .leave rd
    | some block =>
      let readStart := imax dataStart blockStart
      let readEnd := block.readEnd readStart dataEnd
      if readEnd = -1 then .leave rd
      else
        let len := (readEnd - readStart).toNat
        let rd : Reading nameLen :=
          { cache := updateLRU rd.cache block
            readlen := rd.readlen + len
            dataBuf := rd.dataBuf.write (readStart - dataStart).toNat
              (block.dataPtr.advance (readStart - blockStart).toNat) len }
        if dataEnd > readEnd ∧ readEnd < blockStart + blockLen then .leave rd
        else .again (rd, blockStart + blockLen)
  else .leave rd

/-- `Cache::read`: the length delivered, the buffer and the reordered cache. -/
def read (c : Cache nameLen) (name : Vector UInt8 nameLen) (dataStart dataEnd : UInt32)
    (dataBuf : Buffer) : Reading nameLen :=
  (loop (readPass name dataStart dataEnd) blockBudget (⟨c, 0, dataBuf⟩, firstBlock dataStart)).getD
    ⟨c, 0, dataBuf⟩

end BlockCache
