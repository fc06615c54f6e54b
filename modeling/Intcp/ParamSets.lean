import Intcp.FuelledLoop
import Intcp.Odometer
import Intcp.Params

/-!
# Sets of test parameters

`TestParamSet.add`: one test parameter for each choice of a value for every key of
`segDict` and of an entry of every group, counted through by hand. `render` stands for
`str`, and a key that the constructor refuses ends the call.
-/

namespace ParamSets

open Params Dicts FuelledLoop

variable {V : Type}

structure Dict (K A : Type) [DecidableEq K] where
  items : List (K × A)
  unique : (keys items).Nodup

/-- A value of `segDict`. -/
inductive Seg (V : Type) where
  | scalar (value : Value V)
  | list (values : List (Value V))

def Seg.choices : Seg V → List (Value V)
  | .scalar value => [value]
  | .list values => values

abbrev Group (V : Type) := Dict String (Dict Key (Value V))

/-- The arguments of `add`, with something to choose everywhere. -/
structure Args (V : Type) where
  segDict : Dict Key (Seg V)
  segGroupDicts : List (Group V)
  someValue : ∀ item ∈ segDict.items, item.2.choices ≠ []
  someEntry : ∀ group ∈ segGroupDicts, group.items ≠ []

/-- The constructor copies what it is given. -/
structure TestParamSet (V : Type) where
  tpTemplate : TestParam V
  testParams : List (TestParam V)
  copied : ∀ basic, (tpTemplate basic).copy = tpTemplate basic

def TestParamSet.new (topo links app : Value V) : TestParamSet V where
  tpTemplate := TestParam.template topo links app
  testParams := []
  copied basic := by
    cases basic with
    | name => rfl
    | topoParam => exact topo.copy_copy
    | linksParam => exact links.copy_copy
    | appParam => exact app.copy_copy

lemma TestParamSet.new_eq {topo links links' app app' : Value V}
    (same : TestParam.template topo links app = TestParam.template topo links' app') :
    TestParamSet.new topo links app = TestParamSet.new topo links' app' := by
  simp only [TestParamSet.new, same]

namespace Args

variable (args : Args V)

-- After this every value of `segDict` is a list.
def segs : List (Key × List (Value V)) :=
  args.segDict.items.map fun item => (item.1, item.2.choices)

def lenSegDict : Nat := args.segs.length

def sumLen : Nat := args.lenSegDict + args.segGroupDicts.length

end Args

def choose : List (Key × List (Value V)) → List Nat → Option (List (Key × Value V))
  | [], _ => some []
  | (key, values) :: segs, i :: pos => do
    let value ← values[i]?
    let perm ← choose segs pos
    some ((key, value) :: perm)
  | _ :: _, [] => none

/-- The right one covers the left one in shared keys. -/
def mergeGroups : List (Group V) → List Nat → List (Key × Value V) → Option (List (Key × Value V))
  | [], _, perm => some perm
  | group :: groups, i :: pos, perm => do
    let entry ← group.items[i]?
    mergeGroups groups pos (merge perm entry.2.items)
  | _ :: _, [], _ => none

def permAt (args : Args V) (pos : List Nat) : Option (List (Key × Value V)) := do
  let perm ← choose args.segs pos
  mergeGroups args.segGroupDicts (pos.drop args.lenSegDict) perm

/-- `value.name`, which has to be a string. -/
def nameOf? : Value V → Option String
  | .param dict => match get? dict "name" with
    | some (.str name) => some name
    | _ => none
  | _ => none

def tpNameItem (render : Value V → String) (item : Key × Value V) : Option String :=
  if item.1 = ⟨"topoParam", []⟩ then nameOf? item.2
  else some (item.1.spelled ++ "_" ++ render item.2)

def keysInGroups : List (Group V) → List Nat → Option (List String)
  | [], _ => some []
  | group :: groups, i :: pos => do
    let entry ← group.items[i]?
    let names ← keysInGroups groups pos
    some (entry.1 :: names)
  | _ :: _, [] => none

def nameAt (render : Value V → String) (args : Args V) (pos : List Nat) : Option String := do
  let perm ← choose args.segs pos
  let tpNameItems ← perm.mapM (tpNameItem render)
  let keys ← keysInGroups args.segGroupDicts (pos.drop args.lenSegDict)
  some ("_".intercalate (tpNameItems ++ keys))

def build (template : TestParam V) (render : Value V → String) (args : Args V)
    (pos : List Nat) : Option (TestParam V) := do
  let perm ← permAt args pos
  let name ← nameAt render args pos
  TestParam.construct template name perm

def numChoice (args : Args V) (ptr : Nat) : Option Nat :=
  if ptr < args.lenSegDict then args.segs[ptr]?.map (·.2.length)
  else args.segGroupDicts[ptr - args.lenSegDict]?.map (·.items.length)

def carry (args : Args V) : Nat → List Nat → List Nat × Bool
  | ptr, pos =>
    if pos[ptr]? ≠ numChoice args ptr then (pos, false)
    else
      match ptr with
      | 0 => (pos.set 0 0, true)
      | ptr + 1 => carry args ptr ((pos.set (ptr + 1) 0).modify ptr (· + 1))

/-- Move to the next one; the flag is `done`. -/
def moveOn (args : Args V) (pos : List Nat) : List Nat × Bool :=
  carry args (args.sumLen - 1) (pos.modify (args.sumLen - 1) (· + 1))

/-- What `add` leaves in `testParams`, and whether it raised. -/
inductive Outcome (V : Type) where
  | returned (testParams : List (TestParam V))
  | raised (testParams : List (TestParam V))

def addBody (tpTemplate : TestParam V) (render : Value V → String) (args : Args V) :
    List Nat × List (TestParam V) → Pass (List Nat × List (TestParam V)) (Outcome V)
  | (pos, testParams) =>
    match build tpTemplate render args pos with
    | none => .leave (.raised testParams)
    | some tp =>
      if args.sumLen = 0 then .leave (.returned (testParams ++ [tp]))
      else match moveOn args pos with
        | (_, true) => .leave (.returned (testParams ++ [tp]))
        | (pos, false) => .again (pos, testParams ++ [tp])

def add (fuel : Nat) (render : Value V → String) (set : TestParamSet V) (args : Args V) :
    Option (Outcome V) :=
  loop (addBody set.tpTemplate render args) fuel (List.replicate args.sumLen 0, set.testParams)

def Args.sizes (args : Args V) : List Nat :=
  args.segs.map (·.2.length) ++ args.segGroupDicts.map (·.items.length)

lemma length_sizes (args : Args V) : args.sizes.length = args.sumLen := by
  simp [Args.sizes, Args.sumLen, Args.lenSegDict]

lemma numChoice_eq (args : Args V) (ptr : Nat) : numChoice args ptr = args.sizes[ptr]? := by
  have length : (args.segs.map (·.2.length)).length = args.lenSegDict := by
    simp [Args.lenSegDict]
  by_cases h : ptr < args.lenSegDict
  · simp only [numChoice, if_pos h, Args.sizes]
    rw [List.getElem?_append_left (length.symm ▸ h), List.getElem?_map]
  · simp only [numChoice, if_neg h, Args.sizes]
    rw [List.getElem?_append_right (by omega), length, List.getElem?_map]

lemma carry_eq (args : Args V) (ptr : Nat) (pos : List Nat) :
    carry args ptr pos = Odometer.carry args.sizes ptr pos := by
  induction ptr generalizing pos with
  | zero => simp only [carry, Odometer.carry, numChoice_eq]
  | succ ptr ih => rw [carry, Odometer.carry, numChoice_eq, ih]

lemma moveOn_eq (args : Args V) (pos : List Nat) :
    moveOn args pos = Odometer.advance args.sizes pos := by
  rw [moveOn, Odometer.advance, carry_eq, length_sizes]

lemma sizes_positive (args : Args V) : 0 < args.sizes.prod := by
  refine List.prod_pos_iff_forall_pos_nat.mpr fun size h => ?_
  obtain h | h := List.mem_append.mp h
  · obtain ⟨seg, inSegs, rfl⟩ := List.mem_map.mp h
    obtain ⟨item, listed, rfl⟩ := List.mem_map.mp inSegs
    exact List.length_pos_iff.mpr (args.someValue item listed)
  · obtain ⟨group, listed, rfl⟩ := List.mem_map.mp h
    exact List.length_pos_iff.mpr (args.someEntry group listed)

/-- Build one after the other, up to the first that is refused. -/
def visit (make : List Nat → Option (TestParam V)) :
    List (List Nat) → List (TestParam V) → Outcome V
  | [], testParams => .returned testParams
  | pos :: rest, testParams => match make pos with
    | none => .raised testParams
    | some tp => visit make rest (testParams ++ [tp])

lemma addBody_refused {tpTemplate : TestParam V} {render : Value V → String} {args : Args V}
    {pos : List Nat} (testParams : List (TestParam V))
    (refused : build tpTemplate render args pos = none) :
    addBody tpTemplate render args (pos, testParams) = .leave (.raised testParams) := by
  simp [addBody, refused]

lemma addBody_built {tpTemplate tp : TestParam V} {render : Value V → String} {args : Args V}
    {k : Nat} (testParams : List (TestParam V)) (below : k < args.sizes.prod)
    (built : build tpTemplate render args (Odometer.position args.sizes k) = some tp) :
    addBody tpTemplate render args (Odometer.position args.sizes k, testParams) =
      if k + 1 = args.sizes.prod then .leave (.returned (testParams ++ [tp]))
      else .again (Odometer.position args.sizes (k + 1), testParams ++ [tp]) := by
  by_cases nothing : args.sumLen = 0
  · have single : args.sizes = [] := List.length_eq_zero_iff.mp (by rw [length_sizes, nothing])
    have last : k + 1 = args.sizes.prod := by
      rw [single] at below ⊢
      simp_all
    rw [addBody, built, if_pos last]
    simp only [if_pos nothing]
  · have several : args.sizes ≠ [] := by
      intro empty
      exact nothing (by rw [← length_sizes, empty, List.length_nil])
    rw [addBody, built]
    simp only [if_neg nothing, moveOn_eq, Odometer.advance_position several below]
    by_cases last : k + 1 = args.sizes.prod
    · simp [last]
    · simp [last]

/-- From the position of `k` on, `add` visits the positions of `k`, `k + 1` and so on. -/
lemma loop_visits (tpTemplate : TestParam V) (render : Value V → String) (args : Args V)
    (left : Nat) {k : Nat} (here : k + left + 1 = args.sizes.prod)
    (testParams : List (TestParam V)) :
    loop (addBody tpTemplate render args) (left + 1) (Odometer.position args.sizes k, testParams) =
      some (visit (build tpTemplate render args)
        ((List.range' k (left + 1)).map (Odometer.position args.sizes)) testParams) := by
  induction left generalizing k testParams with
  | zero =>
    cases made : build tpTemplate render args (Odometer.position args.sizes k) with
    | none =>
      rw [loop_leave _ (addBody_refused testParams made)]
      simp [visit, made]
    | some tp =>
      have pass := addBody_built testParams (by omega) made
      rw [if_pos (by omega)] at pass
      rw [loop_leave _ pass]
      simp [visit, made]
  | succ left ih =>
    rw [List.range'_succ, List.map_cons]
    cases made : build tpTemplate render args (Odometer.position args.sizes k) with
    | none =>
      rw [loop_leave _ (addBody_refused testParams made)]
      simp [visit, made]
    | some tp =>
      have pass := addBody_built testParams (by omega) made
      rw [if_neg (by omega)] at pass
      rw [loop_again _ pass, ih (by omega)]
      simp [visit, made]

theorem add_visits (render : Value V → String) (set : TestParamSet V) (args : Args V) :
    add args.sizes.prod render set args = some (visit (build set.tpTemplate render args)
      (Odometer.cells args.sizes) set.testParams) := by
  have positive := sizes_positive args
  obtain ⟨left, here⟩ : ∃ left, args.sizes.prod = left + 1 := ⟨args.sizes.prod - 1, by omega⟩
  have run := loop_visits set.tpTemplate render args left (k := 0) (by omega) set.testParams
  rw [Odometer.position_zero, length_sizes, ← here, ← List.range_eq_range',
    Odometer.map_position] at run
  exact run

/-- The value that the right-most group gives the key. -/
def fromGroups : List (Group V) → List Nat → Key → Option (Value V)
  | group :: groups, i :: pos, key =>
    (fromGroups groups pos key).or
      (group.items[i]?.bind fun entry => get? entry.2.items key)
  | _, _, _ => none

def fromSegs : List (Key × List (Value V)) → List Nat → Key → Option (Value V)
  | (own, values) :: segs, i :: pos, key => if own = key then values[i]? else fromSegs segs pos key
  | _, _, _ => none

/-- The value that a choice gives a key: that of a group before that of `segDict`. -/
def source (args : Args V) (pos : List Nat) (key : Key) : Option (Value V) :=
  (fromGroups args.segGroupDicts (pos.drop args.lenSegDict) key).or (fromSegs args.segs pos key)

lemma keys_choose {segs : List (Key × List (Value V))} {pos : List Nat}
    {perm : List (Key × Value V)} (chosen : choose segs pos = some perm) :
    keys perm = keys segs := by
  induction segs generalizing pos perm with
  | nil =>
    obtain rfl := Option.some.inj chosen
    rfl
  | cons seg segs ih =>
    cases pos with
    | nil => cases chosen
    | cons i pos =>
      simp only [choose, bind, Option.bind_eq_some_iff, Option.some.injEq] at chosen
      obtain ⟨value, -, perm, below, rfl⟩ := chosen
      simpa [keys] using ih below

lemma get?_choose {segs : List (Key × List (Value V))} {pos : List Nat}
    {perm : List (Key × Value V)} (chosen : choose segs pos = some perm) (key : Key) :
    get? perm key = fromSegs segs pos key := by
  induction segs generalizing pos perm with
  | nil =>
    obtain rfl := Option.some.inj chosen
    rfl
  | cons seg segs ih =>
    cases pos with
    | nil => cases chosen
    | cons i pos =>
      simp only [choose, bind, Option.bind_eq_some_iff, Option.some.injEq] at chosen
      obtain ⟨value, here, perm, below, rfl⟩ := chosen
      simp [get?, fromSegs, ih below, here]

lemma get?_mergeGroups {groups : List (Group V)} {pos : List Nat}
    {perm perm' : List (Key × Value V)} (merged : mergeGroups groups pos perm = some perm')
    (key : Key) : get? perm' key = (fromGroups groups pos key).or (get? perm key) := by
  induction groups generalizing pos perm with
  | nil =>
    obtain rfl := Option.some.inj merged
    rfl
  | cons group groups ih =>
    cases pos with
    | nil => cases merged
    | cons i pos =>
      obtain ⟨entry, here, merged⟩ := Option.bind_eq_some_iff.mp merged
      rw [ih merged, get?_merge _ entry.2.unique, fromGroups, here, Option.or_assoc]
      rfl

lemma nodup_mergeGroups {groups : List (Group V)} {pos : List Nat}
    {perm perm' : List (Key × Value V)} (unique : (keys perm).Nodup)
    (merged : mergeGroups groups pos perm = some perm') : (keys perm').Nodup := by
  induction groups generalizing pos perm with
  | nil =>
    obtain rfl := Option.some.inj merged
    exact unique
  | cons group groups ih =>
    cases pos with
    | nil => cases merged
    | cons i pos =>
      obtain ⟨entry, -, merged⟩ := Option.bind_eq_some_iff.mp merged
      exact ih (nodup_merge unique _) merged

lemma permAt_spec {args : Args V} {pos : List Nat} {perm : List (Key × Value V)}
    (made : permAt args pos = some perm) :
    (keys perm).Nodup ∧ ∀ key, get? perm key = source args pos key := by
  obtain ⟨own, chosen, merged⟩ := Option.bind_eq_some_iff.mp made
  have unique : (keys own).Nodup := by
    rw [keys_choose chosen]
    simpa [Args.segs, keys, Function.comp_def] using args.segDict.unique
  constructor
  · exact nodup_mergeGroups unique merged
  · intro key
    rw [get?_mergeGroups merged, get?_choose chosen, source]

/-- Every parameter of `tp` is the copy of its source's value, and the template's where no
key of the choice names it. -/
def HoldsChoice (set : TestParamSet V) (args : Args V) (pos : List Nat) (tp : TestParam V) : Prop :=
  (∀ key value, source args pos key = some value → ∃ name, tp.completeKey key = some name ∧
    ∀ below, tp.at? ⟨name.basic, name.path ++ below⟩ = value.copy.at? below) ∧
  ∀ other : Name, other.basic ≠ .name → (∀ key name, (source args pos key).isSome →
    tp.completeKey key = some name → other.Apart name) → tp.at? other = set.tpTemplate.at? other

/-- A value of the choice for `topoParam` that has no name. -/
def Nameless (args : Args V) (pos : List Nat) : Prop :=
  ∃ value, fromSegs args.segs pos ⟨"topoParam", []⟩ = some value ∧ nameOf? value = none

/-- What stops `add` at a choice: a topology without a name, a key that the constructor takes for
its own parameter, or one that leads through an attribute which is not there. -/
def Refused (render : Value V → String) (set : TestParamSet V) (args : Args V)
    (pos : List Nat) : Prop :=
  Nameless args pos ∨ ∃ perm name, permAt args pos = some perm ∧
    nameAt render args pos = some name ∧ ((∃ key ∈ keys perm, key ∈ TestParam.reserved) ∨
      (TestParam.start set.tpTemplate name perm).Stuck (perm.filter (!TestParam.isBasic ·.1)))

lemma isSome_choose {segs : List (Key × List (Value V))} {pos : List Nat}
    (valid : List.Forall₂ (· < ·) (pos.take segs.length) (segs.map (·.2.length))) :
    (choose segs pos).isSome := by
  induction segs generalizing pos with
  | nil => rfl
  | cons seg segs ih =>
    cases pos with
    | nil => cases valid
    | cons i pos =>
      obtain ⟨here, rest⟩ := List.forall₂_cons.mp valid
      obtain ⟨perm, chosen⟩ := Option.isSome_iff_exists.mp (ih rest)
      obtain ⟨key, values⟩ := seg
      simp [choose, List.getElem?_eq_getElem here, chosen]

lemma isSome_mergeGroups {groups : List (Group V)} {pos : List Nat}
    (valid : List.Forall₂ (· < ·) pos (groups.map (·.items.length))) (perm : List (Key × Value V)) :
    (mergeGroups groups pos perm).isSome ∧ (keysInGroups groups pos).isSome := by
  induction groups generalizing pos perm with
  | nil => exact ⟨rfl, rfl⟩
  | cons group groups ih =>
    cases pos with
    | nil => cases valid
    | cons i pos =>
      obtain ⟨here, rest⟩ := List.forall₂_cons.mp valid
      have merged := (ih rest (merge perm group.items[i].2.items)).1
      obtain ⟨names, listed⟩ := Option.isSome_iff_exists.mp (ih rest perm).2
      constructor
      · simpa [mergeGroups, List.getElem?_eq_getElem here] using merged
      · simp [keysInGroups, List.getElem?_eq_getElem here, listed]

lemma isSome_mapM {A B : Type} (f : A → Option B) (items : List A) :
    (items.mapM f).isSome ↔ ∀ item ∈ items, (f item).isSome := by
  induction items with
  | nil => simp
  | cons item items ih =>
    rw [List.forall_mem_cons, ← ih, List.mapM_cons]
    cases f item with
    | none => simp
    | some b => cases items.mapM f <;> simp

/-- The parts of a choice: all of it can be looked up. -/
lemma looksUp {args : Args V} {pos : List Nat} (valid : List.Forall₂ (· < ·) pos args.sizes) :
    ∃ own perm groupKeys, choose args.segs pos = some own ∧ permAt args pos = some perm ∧
      keysInGroups args.segGroupDicts (pos.drop args.lenSegDict) = some groupKeys := by
  have length : (args.segs.map (·.2.length)).length = args.lenSegDict := by
    rw [List.length_map, Args.lenSegDict]
  have front := List.forall₂_take_append pos _ _ valid
  have back := List.forall₂_drop_append pos _ _ valid
  rw [length] at front back
  obtain ⟨own, chosen⟩ := Option.isSome_iff_exists.mp (isSome_choose front)
  obtain ⟨merged, listed⟩ := isSome_mergeGroups back own
  obtain ⟨perm, merged⟩ := Option.isSome_iff_exists.mp merged
  obtain ⟨groupKeys, listed⟩ := Option.isSome_iff_exists.mp listed
  exact ⟨own, perm, groupKeys, chosen, by rw [permAt, chosen]; exact merged, listed⟩

lemma nameAt_eq_none (render : Value V → String) {args : Args V} {pos : List Nat}
    (valid : List.Forall₂ (· < ·) pos args.sizes) :
    nameAt render args pos = none ↔ Nameless args pos := by
  obtain ⟨own, _, groupKeys, chosen, _, listed⟩ := looksUp valid
  have unique : (keys own).Nodup := by
    rw [keys_choose chosen]
    simpa [Args.segs, keys, Function.comp_def] using args.segDict.unique
  have named : nameAt render args pos = none ↔ (own.mapM (tpNameItem render)) = none := by
    rw [nameAt, chosen, listed]
    cases items : own.mapM (tpNameItem render) <;> simp [items]
  rw [named, ← Option.not_isSome_iff_eq_none, isSome_mapM, Nameless]
  simp only [not_forall, Option.not_isSome_iff_eq_none, ← get?_choose chosen]
  constructor
  · rintro ⟨⟨key, value⟩, mem, raised⟩
    rw [tpNameItem] at raised
    split at raised
    · rename_i topo
      obtain rfl : key = ⟨"topoParam", []⟩ := topo
      exact ⟨value, get?_of_mem unique mem, raised⟩
    · cases raised
  · rintro ⟨value, held, raised⟩
    exact ⟨_, mem_of_get? held, by rw [tpNameItem, if_pos rfl]; exact raised⟩

/-- Every choice that is not refused gives a test parameter. -/
lemma build_eq_none (render : Value V → String) (set : TestParamSet V) {args : Args V}
    {pos : List Nat} (valid : List.Forall₂ (· < ·) pos args.sizes) :
    build set.tpTemplate render args pos = none ↔ Refused render set args pos := by
  obtain ⟨_, perm, _, _, made, _⟩ := looksUp valid
  rw [Refused, ← nameAt_eq_none render valid]
  cases named : nameAt render args pos with
  | none => simp [build, made, named]
  | some name =>
    simp only [build, made, named, bind, Option.bind_some, TestParam.construct_eq_none, reduceCtorEq,
      false_or, Option.some.injEq]
    exact ⟨fun h => ⟨perm, name, rfl, rfl, h⟩, by rintro ⟨_, _, rfl, rfl, h⟩; exact h⟩

lemma build_holds (render : Value V → String) (set : TestParamSet V) (args : Args V)
    {pos : List Nat} {tp : TestParam V} (built : build set.tpTemplate render args pos = some tp)
    (clear : tp.Unclashing fun key => (source args pos key).isSome) :
    HoldsChoice set args pos tp := by
  simp only [build, bind, Option.bind_eq_some_iff] at built
  obtain ⟨perm, made, name, -, constructed⟩ := built
  obtain ⟨unique, sources⟩ := permAt_spec made
  have used (key : Key) : key ∈ keys perm ↔ (source args pos key).isSome := by
    rw [← sources, get?_isSome]
  obtain ⟨values, rest⟩ := TestParam.at?_construct unique constructed
    (clear.of_subset fun key h => (used key).mp h)
  constructor
  · intro key value given
    exact values (key, value) (mem_of_get? ((sources key).trans given))
  · intro other notName apart
    rw [rest other notName fun key h name => apart key name ((used key).mp h), set.copied]
    rfl

lemma visit_spec (make : List Nat → Option (TestParam V)) (choices : List (List Nat))
    (testParams : List (TestParam V)) : ∃ built,
      List.Forall₂ (fun pos tp => make pos = some tp) (choices.take built.length) built ∧
      (visit make choices testParams = .returned (testParams ++ built) ∧
          built.length = choices.length ∨
        visit make choices testParams = .raised (testParams ++ built) ∧
          ∃ pos, choices[built.length]? = some pos ∧ make pos = none) := by
  induction choices generalizing testParams with
  | nil => exact ⟨[], .nil, .inl (by simp [visit])⟩
  | cons pos rest ih =>
    cases made : make pos with
    | none => exact ⟨[], .nil, .inr (by simp [visit, made])⟩
    | some tp =>
      obtain ⟨built, each, ends⟩ := ih (testParams ++ [tp])
      refine ⟨tp :: built, .cons made each, ?_⟩
      simpa [visit, made] using ends

/-- It returns exactly if nothing is refused. -/
lemma visit_returns (make : List Nat → Option (TestParam V)) (choices : List (List Nat))
    (testParams : List (TestParam V)) :
    (∀ pos ∈ choices, (make pos).isSome) ∧
        (∃ built, visit make choices testParams = .returned built) ∨
      (¬ ∀ pos ∈ choices, (make pos).isSome) ∧
        ∃ built, visit make choices testParams = .raised built := by
  induction choices generalizing testParams with
  | nil => exact .inl ⟨by simp, testParams, rfl⟩
  | cons pos rest ih =>
    cases made : make pos with
    | none => exact .inr ⟨by simp [made], testParams, by simp [visit, made]⟩
    | some tp =>
      obtain ⟨accepted, built, done⟩ | ⟨refused, built, done⟩ := ih (testParams ++ [tp])
      · exact .inl ⟨by simpa [made] using accepted, built, by simp [visit, made, done]⟩
      · exact .inr ⟨by simpa [made] using refused, built, by simp [visit, made, done]⟩

/-- `add` returns, or raises at the first choice that is refused; up to there it appends one test
parameter for each choice, in lexicographic order. -/
theorem add_enumerates (render : Value V → String) (set : TestParamSet V) (args : Args V) :
    ∃ fuel outcome, ∃ (choices : List (List Nat)) (built : List (TestParam V)),
      add fuel render set args = some outcome ∧
      choices.Pairwise (List.Lex (· < ·)) ∧
      (∀ pos, pos ∈ choices ↔ List.Forall₂ (· < ·) pos args.sizes) ∧
      choices.length = args.sizes.prod ∧
      List.Forall₂ (fun pos tp => build set.tpTemplate render args pos = some tp)
        (choices.take built.length) built ∧
      (outcome = .returned (set.testParams ++ built) ∧ built.length = choices.length ∨
        outcome = .raised (set.testParams ++ built) ∧
          ∃ pos, choices[built.length]? = some pos ∧
            build set.tpTemplate render args pos = none) ∧
      (∀ pos ∈ choices, build set.tpTemplate render args pos = none ↔ Refused render set args pos) ∧
      ∀ pos tp, build set.tpTemplate render args pos = some tp →
        (tp.Unclashing fun key => (source args pos key).isSome) → HoldsChoice set args pos tp := by
  obtain ⟨built, each, ends⟩ := visit_spec (build set.tpTemplate render args)
    (Odometer.cells args.sizes) set.testParams
  refine ⟨_, _, Odometer.cells args.sizes, built, add_visits render set args,
    Odometer.cells_sorted _, fun pos => Odometer.mem_cells, Odometer.length_cells _, each, ends,
    fun pos valid => build_eq_none render set (Odometer.mem_cells.mp valid), ?_⟩
  intro pos tp made clear
  exact build_holds render set args made clear

/-- Two bandwidths by two groups, over one topology. -/
def twoByTwo : Args Nat where
  segDict := ⟨[(⟨"bw", []⟩, .list [.plain 10, .plain 20]), (⟨"topoParam", []⟩,
    .scalar (.param [("name", .str "1_mid")]))], by decide⟩
  segGroupDicts := [⟨[("fast", ⟨[(⟨"h1_pep1", ["rtt"]⟩, .plain 5)], by decide⟩),
    ("slow", ⟨[(⟨"sendTime", []⟩, .plain 60), (⟨"h1_pep1", ["rtt"]⟩, .plain 50)], by decide⟩)],
    by decide⟩]
  someValue := by simp [Seg.choices]
  someEntry := by simp

def emptySet : TestParamSet Nat :=
  TestParamSet.new (.param [("name", .str "nameless")]) (.param [("defaultLP", .param [])])
    (.param [("sendTime", .plain 30)])

/-- None of the four choices is refused, so four test parameters are appended. -/
theorem twoByTwo_enumerated : ∃ fuel built,
    add fuel (fun _ => "v") emptySet twoByTwo = some (.returned built) ∧ built.length = 4 := by
  obtain ⟨fuel, outcome, choices, built, run, -, all, count, -, ends, -, -⟩ :=
    add_enumerates (fun _ => "v") emptySet twoByTwo
  have accepted : ∀ pos ∈ Odometer.cells twoByTwo.sizes,
      (build emptySet.tpTemplate (fun _ => "v") twoByTwo pos).isSome := by
    decide +kernel
  rcases ends with ⟨rfl, full⟩ | ⟨-, pos, listed, refused⟩
  · exact ⟨fuel, _, run, by rw [emptySet, TestParamSet.new, List.nil_append, full, count]; rfl⟩
  · have valid := (all pos).mp (List.mem_of_getElem? listed)
    have built := accepted pos (Odometer.mem_cells.mpr valid)
    rw [refused] at built
    cases built

/-- The call returns, with a test parameter more for each choice. -/
def Completes (render : Value V → String) (set : TestParamSet V) (args : Args V) : Prop :=
  ∃ fuel built, add fuel render set args = some (.returned (set.testParams ++ built)) ∧
    built.length = args.sizes.prod

/-- The constructor's own keyword `name` cannot be a key. -/
theorem name_refused :
    ¬ Completes (fun _ => "short")
      (TestParamSet.new (.param [("name", .str "1_mid")]) (.param [("defaultLP", .param [])])
        (.param [("sendTime", .plain 60)]))
      { segDict := ⟨[(⟨"name", []⟩, .scalar (.str "short"))], by decide⟩
        segGroupDicts := []
        someValue := by simp [Seg.choices]
        someEntry := by simp } := by
  rintro ⟨fuel, built, run, -⟩
  cases fuel with
  | zero => cases run
  | succ fuel => cases run

end ParamSets
