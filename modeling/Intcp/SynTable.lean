import Intcp.StepRuns
import Mathlib.Data.List.GetD
import Mathlib.Data.List.Nodup
import Mathlib.Data.List.Perm.Basic

/-!
# The table of connections of the proxy

A SYN is looked up by its source in a hash table with chains, and every connection also stands in
a list that the poller goes through. The table grows as it fills, by what memory there is; what it
finds is what the list holds.
-/

namespace SynTable

open StepRuns

universe u v

section Chains

variable {α : Type u}

lemma flatten_perm (table : List (List α)) {i : Nat} (hi : i < table.length) :
    table.flatten.Perm (table.getD i [] ++ (table.eraseIdx i).flatten) := by
  induction table generalizing i with
  | nil => exact absurd hi (Nat.not_lt_zero i)
  | cons chain table ih =>
    cases i with
    | zero => exact .refl _
    | succ i =>
      have later := ih (Nat.lt_of_succ_lt_succ hi)
      exact (later.append_left chain).trans (List.perm_append_comm_assoc _ _ _)

lemma getD_set (table : List (List α)) {i : Nat} (hi : i < table.length) (chain : List α)
    (j : Nat) : (table.set i chain).getD j [] = if i = j then chain else table.getD j [] := by
  by_cases same : i = j
  · subst same
    rw [if_pos rfl, List.getD_eq_getElem _ _ (by rwa [List.length_set]), List.getElem_set_self]
  · rw [if_neg same, List.getD_eq_getElem?_getD, List.getD_eq_getElem?_getD,
      List.getElem?_set_ne same]

lemma flatten_set (table : List (List α)) {i : Nat} (hi : i < table.length) (chain : List α) :
    (table.set i chain).flatten.Perm (chain ++ (table.eraseIdx i).flatten) := by
  have h := flatten_perm (table.set i chain) (by rwa [List.length_set])
  rwa [getD_set table hi, if_pos rfl, List.eraseIdx_set_eq] at h

end Chains

structure Entry (K : Type u) (V : Type v) where
  k : K
  v : V
  h : UInt32

structure Hashtable (K : Type u) (V : Type v) where
  table : List (List (Entry K V))
  primeindex : Nat
  entrycount : Nat
  loadlimit : Nat

def primes : List Nat :=
  [53, 97, 193, 389, 769, 1543, 3079, 6151, 12289, 24593, 49157, 98317, 196613, 393241, 786433,
    1572869, 3145739, 6291469, 12582917, 25165843, 50331653, 100663319, 201326611, 402653189,
    805306457, 1610612741]

/-- The functions of a table; `limit size` is `ceil(size * max_load_factor)`. -/
structure Functions (K : Type u) where
  hashfn : K → UInt32
  eqfn : K → K → Bool
  limit : Nat → Nat

variable {K : Type u} {V : Type v} (fns : Functions K)

def indexFor (tablelength : Nat) (hashvalue : UInt32) : Nat := hashvalue.toNat % tablelength

def createHashtable (minsize : Nat) : Option (Hashtable K V) :=
  if minsize > 1 <<< 30 then none
  else
    let pindex := primes.findIdx (decide <| · > minsize)
    let size := primes.getD pindex 53
    some ⟨List.replicate size [], pindex, 0, fns.limit size⟩

def push (table : List (List (Entry K V))) (e : Entry K V) : List (List (Entry K V)) :=
  let hindex := indexFor table.length e.h
  table.set hindex (e :: table.getD hindex [])

/-- Which of its two calls for a larger table `hashtable_expand` succeeds with. -/
inductive Memory where
  | malloc
  | realloc
  | short
deriving DecidableEq

/-- `none`: after `realloc` the new part is not cleared, but some memory at the address that its
first place happens to hold. -/
def hashtableExpand (memory : Memory) (h : Hashtable K V) : Option (Hashtable K V) :=
  if h.primeindex = primes.length - 1 then some h
  else
    let newsize := primes.getD (h.primeindex + 1) 0
    match memory with
    | .malloc => some { h with
        table := h.table.flatten.foldl push (List.replicate newsize [])
        primeindex := h.primeindex + 1
        loadlimit := fns.limit newsize }
    | .realloc => none
    | .short => some h

/-- `room`: there is memory for the entry. -/
def hashtableInsert (memory : Memory) (room : Bool) (h : Hashtable K V) (k : K) (v : V) :
    Option (Int × Hashtable K V) :=
  let grown :=
    if h.entrycount + 1 > h.loadlimit then
      hashtableExpand fns memory { h with entrycount := h.entrycount + 1 }
    else some { h with entrycount := h.entrycount + 1 }
  grown.map fun h =>
    if room then (-1, { h with table := push h.table ⟨k, v, fns.hashfn k⟩ })
    else (0, { h with entrycount := h.entrycount - 1 })

/-- The chain in which a key is looked for. -/
def chainOf (h : Hashtable K V) (k : K) : List (Entry K V) :=
  h.table.getD (indexFor h.table.length (fns.hashfn k)) []

def matchesKey (k : K) (e : Entry K V) : Bool := fns.hashfn k == e.h && fns.eqfn k e.k

def hashtableSearch (h : Hashtable K V) (k : K) : Option V :=
  ((chainOf fns h k).find? (matchesKey fns k)).map Entry.v

def hashtableRemove (h : Hashtable K V) (k : K) : Option V × Hashtable K V :=
  let hindex := indexFor h.table.length (fns.hashfn k)
  match (chainOf fns h k).find? (matchesKey fns k) with
  | none => (none, h)
  | some e => (some e.v, { h with
      table := h.table.set hindex ((chainOf fns h k).eraseP (matchesKey fns k))
      entrycount := h.entrycount - 1 })

structure SyntabKey where
  addr : UInt32
  port : UInt16
deriving DecidableEq

/-- A `pep_proxy *`: where the proxy was allocated, and the address and port of its `src`, which
stay what they are. -/
structure ProxyRef where
  place : Nat
  src : SyntabKey
deriving DecidableEq

/-- A round of `BJ_MIX` on its three words. -/
def bjMix (a b c : UInt32) : UInt32 × UInt32 × UInt32 :=
  let a := (a - b - c) ^^^ (c >>> 13)
  let b := (b - c - a) ^^^ (a <<< 8)
  let c := (c - a - b) ^^^ (b >>> 13)
  let a := (a - b - c) ^^^ (c >>> 12)
  let b := (b - c - a) ^^^ (a <<< 16)
  let c := (c - a - b) ^^^ (b >>> 5)
  let a := (a - b - c) ^^^ (c >>> 3)
  let b := (b - c - a) ^^^ (a <<< 10)
  let c := (c - a - b) ^^^ (b >>> 15)
  (a, b, c)

def syntabHashfunction (k : SyntabKey) : UInt32 :=
  let key := (bjMix k.port.toUInt32 0x9e3779b9 k.addr).2.2
  let key : UInt32 := (key + 0x7ed55d16) + (key <<< (12 : UInt32))
  let key : UInt32 := (key ^^^ 0xc761c23c) ^^^ (key >>> (19 : UInt32))
  let key : UInt32 := (key + 0x165667b1) + (key <<< (5 : UInt32))
  let key : UInt32 := (key + 0xd3a2646c) ^^^ (key <<< (9 : UInt32))
  let key : UInt32 := (key + 0xfd7046c5) + (key <<< (3 : UInt32))
  (key ^^^ 0xb55a4f09) ^^^ (key >>> (16 : UInt32))

def syntabFunctions (limit : Nat → Nat) : Functions SyntabKey where
  hashfn := syntabHashfunction
  eqfn := fun k1 k2 => decide (k1 = k2)
  limit := limit

structure SynTab where
  hash : Hashtable SyntabKey ProxyRef
  conns : List ProxyRef
  numItems : Nat

variable (limit : Nat → Nat)

def syntabInit (numConns : Nat) : Option SynTab :=
  (createHashtable (syntabFunctions limit) (numConns * 25 / 100)).map fun hash => ⟨hash, [], 0⟩

def syntabFind (st : SynTab) (key : SyntabKey) : Option ProxyRef :=
  hashtableSearch (syntabFunctions limit) st.hash key

/-- `key`: there is memory for the key. -/
def syntabAdd (memory : Memory) (key room : Bool) (st : SynTab) (proxy : ProxyRef) :
    Option (Int × SynTab) :=
  if key then
    let inserted := hashtableInsert (syntabFunctions limit) memory room st.hash proxy.src proxy
    inserted.map fun inserted =>
      if inserted.1 = 0 then (-1, { st with hash := inserted.2 })
      else (0, { hash := inserted.2, conns := st.conns ++ [proxy], numItems := st.numItems + 1 })
  else some (-1, st)

def syntabDelete (st : SynTab) (proxy : ProxyRef) : SynTab where
  hash := (hashtableRemove (syntabFunctions limit) st.hash proxy.src).2
  conns := st.conns.erase proxy
  numItems := st.numItems - 1

inductive Call where
  | save (proxy : ProxyRef) (memory : Memory) (key room : Bool)
  | destroy (proxy : ProxyRef)

/-- `save_proxy_from_socket` drops a second SYN of a source, and `destroy_proxy` leaves alone what
is closed already. -/
def step (call : Call) (st : SynTab) : Option SynTab :=
  match call with
  | .save proxy memory key room =>
    if (syntabFind limit st proxy.src).isSome then some st
    else (syntabAdd limit memory key room st proxy).map Prod.snd
  | .destroy proxy =>
    if proxy ∈ st.conns then some (syntabDelete limit st proxy) else some st

section Table

variable {fns} {h : Hashtable K V}

/-- Every entry stands in the chain of its hash value. -/
def Placed (table : List (List (Entry K V))) : Prop :=
  ∀ i, ∀ e ∈ table.getD i [], indexFor table.length e.h = i

lemma indexFor_lt {table : List (List (Entry K V))} (pos : 0 < table.length) (hashvalue : UInt32) :
    indexFor table.length hashvalue < table.length :=
  Nat.mod_lt _ pos

lemma length_push (table : List (List (Entry K V))) (e : Entry K V) :
    (push table e).length = table.length :=
  List.length_set

lemma perm_push {table : List (List (Entry K V))} (pos : 0 < table.length) (e : Entry K V) :
    (push table e).flatten.Perm (e :: table.flatten) := by
  have hi := indexFor_lt pos e.h
  exact (flatten_set table hi _).trans ((flatten_perm table hi).symm.cons e)

lemma placed_push {table : List (List (Entry K V))} (pos : 0 < table.length)
    (placed : Placed table) (e : Entry K V) : Placed (push table e) := by
  intro i e' he'
  rw [length_push]
  rw [push, getD_set table (indexFor_lt pos e.h)] at he'
  split at he'
  · rename_i here
    rcases List.mem_cons.mp he' with rfl | old
    · exact here
    · exact here ▸ placed _ e' old
  · exact placed i e' he'

/-- Moving the entries over into a larger table. -/
lemma foldl_push (entries : List (Entry K V)) {table : List (List (Entry K V))}
    (pos : 0 < table.length) (placed : Placed table) :
    (entries.foldl push table).length = table.length ∧ Placed (entries.foldl push table) ∧
      (entries.foldl push table).flatten.Perm (entries ++ table.flatten) := by
  induction entries generalizing table with
  | nil => exact ⟨rfl, placed, .refl _⟩
  | cons e entries ih =>
    obtain ⟨hlength, hplaced, hperm⟩ :=
      ih (by rwa [length_push]) (placed_push pos placed e)
    refine ⟨hlength.trans (length_push table e), hplaced, hperm.trans ?_⟩
    exact ((perm_push pos e).append_left entries).trans List.perm_middle

lemma placed_empty (size : Nat) : Placed (List.replicate size ([] : List (Entry K V))) := by
  intro i e he
  have blank : (List.replicate size ([] : List (Entry K V))).getD i [] = [] := by
    rw [List.getD_eq_getElem?_getD, List.getElem?_replicate]
    split <;> rfl
  rw [blank] at he
  exact absurd he List.not_mem_nil

/-- A table in which every entry can be found, and which can grow. -/
structure Sound (h : Hashtable K V) : Prop where
  pos : 0 < h.table.length
  placed : Placed h.table
  prime : h.primeindex < primes.length

lemma prime_pos {i : Nat} (hi : i < primes.length) : 0 < primes.getD i 0 := by
  have all : ∀ p ∈ primes, 0 < p := by decide
  rw [List.getD_eq_getElem _ _ hi]
  exact all _ (List.getElem_mem hi)

lemma expand_spec {memory : Memory} (able : memory ≠ .realloc) (sound : Sound h) :
    ∃ grown, hashtableExpand fns memory h = some grown ∧ Sound grown ∧
      grown.table.flatten.Perm h.table.flatten ∧ grown.entrycount = h.entrycount := by
  by_cases last : h.primeindex = primes.length - 1
  · exact ⟨h, if_pos last, sound, .refl _, rfl⟩
  · have hexpand : hashtableExpand fns memory h = _ := if_neg last
    have hprime : h.primeindex + 1 < primes.length := by
      have := sound.prime
      omega
    cases memory with
    | malloc =>
      have wide : 0 < (List.replicate (primes.getD (h.primeindex + 1) 0)
          ([] : List (Entry K V))).length := by
        rw [List.length_replicate]
        exact prime_pos hprime
      obtain ⟨hlength, hplaced, hperm⟩ := foldl_push h.table.flatten wide (placed_empty _)
      refine ⟨_, hexpand, ⟨hlength ▸ wide, hplaced, hprime⟩, ?_, rfl⟩
      rwa [List.flatten_replicate_nil, List.append_nil] at hperm
    | realloc => exact absurd rfl able
    | short => exact ⟨h, hexpand, sound, .refl _, rfl⟩

lemma insert_spec {memory : Memory} (able : memory ≠ .realloc) (room : Bool) (sound : Sound h)
    (k : K) (v : V) :
    ∃ code inserted, hashtableInsert fns memory room h k v = some (code, inserted) ∧
      Sound inserted ∧ ((code = 0 ∧ inserted.table.flatten.Perm h.table.flatten ∧
          inserted.entrycount = h.entrycount) ∨
        (code ≠ 0 ∧ inserted.table.flatten.Perm (⟨k, v, fns.hashfn k⟩ :: h.table.flatten) ∧
          inserted.entrycount = h.entrycount + 1)) := by
  have counted : Sound { h with entrycount := h.entrycount + 1 } :=
    ⟨sound.pos, sound.placed, sound.prime⟩
  have hgrown : ∃ grown, (if h.entrycount + 1 > h.loadlimit then
        hashtableExpand fns memory { h with entrycount := h.entrycount + 1 }
      else some { h with entrycount := h.entrycount + 1 }) = some grown ∧ Sound grown ∧
      grown.table.flatten.Perm h.table.flatten ∧ grown.entrycount = h.entrycount + 1 := by
    split
    · exact expand_spec able counted
    · exact ⟨_, rfl, counted, .refl _, rfl⟩
  obtain ⟨grown, hgrown, hsound, hperm, hcount⟩ := hgrown
  have hinsert := congrArg (Option.map fun h : Hashtable K V =>
    if room then ((-1 : Int), { h with table := push h.table ⟨k, v, fns.hashfn k⟩ })
    else (0, { h with entrycount := h.entrycount - 1 })) hgrown
  cases room with
  | false =>
    refine ⟨0, { grown with entrycount := grown.entrycount - 1 }, hinsert,
      ⟨hsound.pos, hsound.placed, hsound.prime⟩, .inl ⟨rfl, hperm, ?_⟩⟩
    simp only [hcount, Nat.add_sub_cancel]
  | true =>
    refine ⟨-1, { grown with table := push grown.table ⟨k, v, fns.hashfn k⟩ }, hinsert,
      ⟨?_, placed_push hsound.pos hsound.placed _, hsound.prime⟩, .inr ⟨by decide, ?_, hcount⟩⟩
    · simpa [length_push] using hsound.pos
    · exact (perm_push hsound.pos _).trans (hperm.cons _)

/-- Keys are compared as such, and every entry knows its hash value. -/
structure Keyed (fns : Functions K) (h : Hashtable K V) : Prop where
  compares : ∀ k k', fns.eqfn k k' = true ↔ k = k'
  hashed : ∀ e ∈ h.table.flatten, e.h = fns.hashfn e.k

lemma matches_iff (keyed : Keyed fns h) {k : K} {e : Entry K V} (he : e ∈ h.table.flatten) :
    matchesKey fns k e = true ↔ e.k = k := by
  rw [matchesKey, Bool.and_eq_true_iff, keyed.compares, beq_iff_eq, keyed.hashed e he]
  exact ⟨fun same => same.2.symm, fun same => ⟨same ▸ rfl, same.symm⟩⟩

lemma mem_chain (i : Nat) {e : Entry K V} (he : e ∈ h.table.getD i []) : e ∈ h.table.flatten := by
  by_cases hi : i < h.table.length
  · exact (flatten_perm h.table hi).mem_iff.mpr (List.mem_append_left _ he)
  · rw [List.getD_eq_default _ _ (Nat.le_of_not_lt hi)] at he
    exact absurd he List.not_mem_nil

lemma chain_of_mem (keyed : Keyed fns h) (sound : Sound h) {e : Entry K V}
    (he : e ∈ h.table.flatten) :
    e ∈ chainOf fns h e.k := by
  obtain ⟨chain, hchain, hmem⟩ := List.mem_flatten.mp he
  obtain ⟨i, hi, rfl⟩ := List.getElem_of_mem hchain
  rw [← List.getD_eq_getElem _ [] hi] at hmem
  rw [chainOf, ← keyed.hashed e he, sound.placed i e hmem]
  exact hmem

/-- What a search comes to. -/
lemma find_chain (keyed : Keyed fns h) (sound : Sound h) (k : K) :
    (∃ e ∈ h.table.flatten, e.k = k ∧ (chainOf fns h k).find? (matchesKey fns k) = some e) ∨
    ((chainOf fns h k).find? (matchesKey fns k) = none ∧ ∀ e ∈ h.table.flatten, e.k ≠ k) := by
  cases hfind : (chainOf fns h k).find? (matchesKey fns k) with
  | some e =>
    have he := mem_chain _ (List.mem_of_find?_eq_some hfind)
    exact .inl ⟨e, he, (matches_iff keyed he).mp (List.find?_some hfind), rfl⟩
  | none =>
    refine .inr ⟨rfl, fun e he same => ?_⟩
    have hchain := chain_of_mem keyed sound he
    rw [same] at hchain
    exact List.find?_eq_none.mp hfind e hchain ((matches_iff keyed he).mpr same)

lemma remove_spec (keyed : Keyed fns h) (sound : Sound h) {k : K}
    (present : ∃ e ∈ h.table.flatten, e.k = k) :
    ∃ e ∈ h.table.flatten, e.k = k ∧ Sound (hashtableRemove fns h k).2 ∧
      h.table.flatten.Perm (e :: (hashtableRemove fns h k).2.table.flatten) ∧
      (hashtableRemove fns h k).2.entrycount = h.entrycount - 1 := by
  have hi := indexFor_lt sound.pos (fns.hashfn k)
  rcases find_chain keyed sound k with ⟨found, hfound, hk, hfind⟩ | ⟨-, absent⟩
  · have hchain := List.mem_of_find?_eq_some hfind
    obtain ⟨e, l₁, l₂, -, hmatches, hsplit, herase⟩ :=
      List.exists_of_eraseP hchain (List.find?_some hfind)
    have he : e ∈ h.table.flatten :=
      mem_chain _ (hsplit ▸ List.mem_append_right _ List.mem_cons_self)
    have hremove : (hashtableRemove fns h k).2 = { h with
        table := h.table.set (indexFor h.table.length (fns.hashfn k)) (l₁ ++ l₂)
        entrycount := h.entrycount - 1 } := by
      rw [hashtableRemove, hfind, herase]
    have hplace : h.table.getD (indexFor h.table.length (fns.hashfn k)) [] = l₁ ++ e :: l₂ := hsplit
    rw [hremove]
    refine ⟨e, he, (matches_iff keyed he).mp hmatches, ⟨?_, ?_, sound.prime⟩, ?_, rfl⟩
    · simpa using sound.pos
    · intro i e' he'
      rw [List.length_set]
      rw [getD_set h.table hi] at he'
      split at he'
      · rename_i here
        refine here ▸ sound.placed _ e' ?_
        rw [hplace]
        exact (List.perm_middle.mem_iff).mpr (List.mem_cons_of_mem _ he')
      · exact sound.placed i e' he'
    · refine (flatten_perm h.table hi).trans ?_
      rw [hplace]
      refine (List.perm_middle.append_right _).trans ?_
      exact ((flatten_set h.table hi _).symm).cons e
  · obtain ⟨e, he, hk⟩ := present
    exact absurd hk (absent e he)

end Table

section SynTab

variable {limit} {st : SynTab}

def entryOf (proxy : ProxyRef) : Entry SyntabKey ProxyRef :=
  ⟨proxy.src, proxy, syntabHashfunction proxy.src⟩

/-- The table holds the connections of the list, and one at most of a source. -/
structure Agrees (st : SynTab) : Prop where
  sound : Sound st.hash
  entries : st.hash.table.flatten.Perm (st.conns.map entryOf)
  distinct : (st.conns.map ProxyRef.src).Nodup
  counted : st.hash.entrycount = st.conns.length
  numItems : st.numItems = st.conns.length

lemma mem_entries (h : Agrees st) {e : Entry SyntabKey ProxyRef} :
    e ∈ st.hash.table.flatten ↔ ∃ proxy ∈ st.conns, entryOf proxy = e :=
  h.entries.mem_iff.trans List.mem_map

lemma Agrees.keyed (h : Agrees st) : Keyed (syntabFunctions limit) st.hash := by
  refine ⟨fun _ _ => decide_eq_true_iff, fun e he => ?_⟩
  obtain ⟨proxy, -, rfl⟩ := (mem_entries h).mp he
  rfl

lemma Agrees.unique (h : Agrees st) {p q : ProxyRef} (hp : p ∈ st.conns) (hq : q ∈ st.conns)
    (same : p.src = q.src) : p = q :=
  List.inj_on_of_nodup_map h.distinct hp hq same

lemma find_spec (h : Agrees st) (key : SyntabKey) :
    syntabFind limit st key = st.conns.find? fun proxy => decide (proxy.src = key) := by
  rw [syntabFind, hashtableSearch]
  rcases find_chain h.keyed h.sound key with ⟨e, he, hk, hfind⟩ | ⟨hnone, absent⟩
  · obtain ⟨proxy, hproxy, rfl⟩ := (mem_entries h).mp he
    rw [hfind, Option.map_some]
    cases hlist : st.conns.find? fun proxy => decide (proxy.src = key) with
    | none => exact absurd (decide_eq_true hk) (List.find?_eq_none.mp hlist proxy hproxy)
    | some other =>
      have hfound := List.find?_some hlist
      have hother : other.src = key := of_decide_eq_true hfound
      exact congrArg some
        (h.unique hproxy (List.mem_of_find?_eq_some hlist) (Eq.trans hk hother.symm))
  · rw [hnone, Option.map_none, eq_comm, List.find?_eq_none]
    intro proxy hproxy hsrc
    exact absent (entryOf proxy) ((mem_entries h).mpr ⟨proxy, hproxy, rfl⟩) (of_decide_eq_true hsrc)

lemma agrees_add {memory : Memory} (able : memory ≠ .realloc) (key room : Bool) (h : Agrees st)
    {proxy : ProxyRef} (new : syntabFind limit st proxy.src = none) :
    ∃ code added, syntabAdd limit memory key room st proxy = some (code, added) ∧ Agrees added := by
  cases key with
  | false => exact ⟨-1, st, rfl, h⟩
  | true =>
    obtain ⟨code, inserted, hinsert, hsound, hcases⟩ :=
      @insert_spec _ _ (syntabFunctions limit) _ _ able room h.sound proxy.src proxy
    have hadd : syntabAdd limit memory true room st proxy =
        some (if code = 0 then (-1, { st with hash := inserted })
          else (0, ⟨inserted, st.conns ++ [proxy], st.numItems + 1⟩)) := by
      rw [syntabAdd, if_pos rfl, hinsert, Option.map_some]
    rcases hcases with ⟨refused, hperm, hcount⟩ | ⟨accepted, hperm, hcount⟩
    · rw [if_pos refused] at hadd
      exact ⟨_, _, hadd, hsound, hperm.trans h.entries, h.distinct, hcount.trans h.counted,
        h.numItems⟩
    · rw [if_neg accepted] at hadd
      refine ⟨_, _, hadd, hsound, ?_, ?_, ?_, ?_⟩
      · rw [List.map_append]
        refine hperm.trans ((h.entries.cons _).trans ?_)
        exact (List.perm_append_singleton (entryOf proxy) _).symm
      · rw [find_spec h, List.find?_eq_none] at new
        rw [List.map_append, List.nodup_append]
        refine ⟨h.distinct, List.nodup_singleton _, fun src hsrc other hother same => ?_⟩
        obtain ⟨old, hold, rfl⟩ := List.mem_map.mp hsrc
        rw [List.map_singleton, List.mem_singleton] at hother
        exact new old hold (decide_eq_true (same.trans hother))
      · rw [hcount, h.counted, List.length_append, List.length_singleton]
      · simp only [h.numItems, List.length_append, List.length_singleton]

lemma agrees_delete (h : Agrees st) {proxy : ProxyRef} (held : proxy ∈ st.conns) :
    Agrees (syntabDelete limit st proxy) := by
  have keyed : Keyed (syntabFunctions limit) st.hash := h.keyed
  obtain ⟨e, he, hk, hsound, hperm, hcount⟩ := remove_spec keyed h.sound
    ⟨entryOf proxy, (mem_entries h).mpr ⟨proxy, held, rfl⟩, rfl⟩
  obtain ⟨other, hother, rfl⟩ := (mem_entries h).mp he
  obtain rfl : proxy = other := (h.unique hother held hk).symm
  have hconns := (List.perm_cons_erase held).map entryOf
  have hfewer : (syntabDelete limit st proxy).conns.length = st.conns.length - 1 :=
    List.length_erase_of_mem held
  refine ⟨hsound, ?_, h.distinct.sublist (List.erase_sublist.map _), ?_, ?_⟩
  · exact (hperm.symm.trans (h.entries.trans hconns)).cons_inv
  · exact (hcount.trans (congrArg (· - 1) h.counted)).trans hfewer.symm
  · exact (congrArg (· - 1) h.numItems).trans hfewer.symm

lemma agrees_init {numConns : Nat} {start : SynTab}
    (hinit : syntabInit limit numConns = some start) : Agrees start := by
  obtain ⟨hash, hcreate, rfl⟩ := Option.map_eq_some_iff.mp hinit
  rw [createHashtable] at hcreate
  split at hcreate
  · cases hcreate
  · rename_i small
    cases hcreate
    have hprime : primes.findIdx (fun p => decide (p > numConns * 25 / 100)) < primes.length := by
      refine List.findIdx_lt_length_of_exists ⟨1610612741, by decide, decide_eq_true ?_⟩
      omega
    have wide : 0 < primes.getD (primes.findIdx fun p => decide (p > numConns * 25 / 100)) 53 := by
      rw [List.getD_eq_getElem _ _ hprime, ← List.getD_eq_getElem _ 0 hprime]
      exact prime_pos hprime
    refine ⟨⟨?_, placed_empty _, hprime⟩, ?_, List.nodup_nil, rfl, rfl⟩
    · rw [List.length_replicate]
      exact wide
    · rw [List.flatten_replicate_nil]
      exact .refl _

/-- The table is never enlarged by `realloc`. -/
def Able : Call → Prop
  | .save _ memory _ _ => memory ≠ .realloc
  | .destroy _ => True

lemma agrees_step (call : Call) (h : Agrees st) (able : Able call) :
    ∃ next, step limit call st = some next ∧ Agrees next := by
  cases call with
  | save proxy memory key room =>
    by_cases twice : (syntabFind limit st proxy.src).isSome
    · exact ⟨st, if_pos twice, h⟩
    · have new : syntabFind limit st proxy.src = none := Option.not_isSome_iff_eq_none.mp twice
      obtain ⟨code, added, hadd, hadded⟩ := agrees_add able key room h new
      refine ⟨added, (if_neg twice).trans ?_, hadded⟩
      rw [hadd, Option.map_some]
  | destroy proxy =>
    by_cases held : proxy ∈ st.conns
    · exact ⟨_, if_pos held, agrees_delete h held⟩
    · exact ⟨st, if_neg held, h⟩

end SynTab

/-- However connections come and go and whether there is memory for them or not, but for a table
that `realloc` has enlarged, what is looked up in the table is what stands in the list, where no
source stands twice. -/
theorem run_finds {numConns : Nat} {start : SynTab}
    (hinit : syntabInit limit numConns = some start) {calls : List Call}
    (able : ∀ call ∈ calls, Able call) :
    ∃ st, run (step limit) start calls = some st ∧ (st.conns.map ProxyRef.src).Nodup ∧
      st.hash.entrycount = st.conns.length ∧ st.numItems = st.conns.length ∧
      ∀ key, syntabFind limit st key = st.conns.find? fun proxy => decide (proxy.src = key) := by
  obtain ⟨st, hrun, h⟩ := run_total Agrees (fun _ call h able => agrees_step call h able)
    (agrees_init hinit) able
  exact ⟨st, hrun, h.distinct, h.counted, h.numItems, fun key => find_spec h key⟩

/-- A load factor of about 0.02, so that the second connection already finds the table full. -/
def tightLimit (size : Nat) : Nat := size / 50

/-- A second SYN of a source is dropped, and saved when the first connection is over; meanwhile the
table has grown for another source, and once more for one that there was no entry left for. -/
def renewed : List Call :=
  [.save ⟨1, ⟨7, 80⟩⟩ .short true true, .save ⟨2, ⟨7, 80⟩⟩ .short true true,
    .save ⟨3, ⟨8, 80⟩⟩ .malloc true true, .save ⟨4, ⟨9, 80⟩⟩ .malloc true false,
    .destroy ⟨1, ⟨7, 80⟩⟩, .save ⟨5, ⟨7, 80⟩⟩ .short true true]

theorem run_finds_renewed : ∃ start st, syntabInit tightLimit 8 = some start ∧
    run (step tightLimit) start renewed = some st ∧
      start.hash.table.length = 53 ∧ st.hash.table.length = 193 ∧
      st.conns = [⟨3, ⟨8, 80⟩⟩, ⟨5, ⟨7, 80⟩⟩] ∧
      syntabFind tightLimit st ⟨7, 80⟩ = some ⟨5, ⟨7, 80⟩⟩ ∧
      syntabFind tightLimit st ⟨8, 80⟩ = some ⟨3, ⟨8, 80⟩⟩ ∧
      syntabFind tightLimit st ⟨9, 80⟩ = none := by
  obtain ⟨start, hinit⟩ := Option.isSome_iff_exists.mp
    (show (syntabInit tightLimit 8).isSome = true by decide +kernel)
  have able : ∀ call ∈ renewed, Able call := by
    simp [renewed, Able]
  obtain ⟨st, hrun, -, -, -, hfind⟩ := run_finds tightLimit hinit able
  have hconns : ((syntabInit tightLimit 8).bind fun start =>
      (run (step tightLimit) start renewed).map fun st =>
        (start.hash.table.length, st.hash.table.length, st.conns)) =
      some (53, 193, [⟨3, ⟨8, 80⟩⟩, ⟨5, ⟨7, 80⟩⟩]) := by
    decide +kernel
  rw [hinit, Option.bind_some, hrun, Option.map_some, Option.some.injEq] at hconns
  simp only [Prod.mk.injEq] at hconns
  obtain ⟨small, grown, hconns⟩ := hconns
  have hlookup := fun key => hconns ▸ hfind key
  exact ⟨start, st, hinit, hrun, small, grown, hconns, hlookup _, hlookup _, hlookup _⟩

end SynTable
