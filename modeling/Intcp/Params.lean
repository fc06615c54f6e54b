import Intcp.Dicts

/-!
# Parameters

`testbed/Param.py`: a parameter object is its `__dict__`. Every value that is set is
copied first, so an object is a tree and no two objects share a part. An object in the
field `linksParam` is a `LinksParam`, one elsewhere is not; plain data has no
attributes. A key like `linksParam.pep_h2.bw` is its words.
-/

namespace Params

open Dicts

variable {V : Type}

/-- A string, other plain data, or a parameter object. -/
inductive Value (V : Type) where
  | plain (v : V)
  | str (s : String)
  | param (dict : List (String × Value V))

namespace Value

/- `set` does nothing for the key `nokey`, its default, so a copy lacks it. -/
mutual

def copy : Value V → Value V
  | .plain v => .plain v
  | .str s => .str s
  | .param dict => .param (copyDict dict)

def copyDict : List (String × Value V) → List (String × Value V)
  | [] => []
  | (key, value) :: dict =>
    if key = "nokey" then copyDict dict else (key, value.copy) :: copyDict dict

end

/-- The names in `__dict__`, where there is one. -/
def names? : Value V → Option (List String)
  | .param dict => some (keys dict)
  | _ => none

def at? : Value V → List String → Option (Value V)
  | obj, [] => some obj
  | .param dict, key :: path => (get? dict key).bind (·.at? path)
  | _, _ :: _ => none

/-- `Param.set` for a dotted key. Only the last word may be new. -/
def set : Value V → List String → Value V → Option (Value V)
  | _, [], value => some value.copy
  | .param dict, [key], value => some (.param (assign dict key value.copy))
  | .param dict, key :: path, value => do
    let obj ← get? dict key
    let obj ← obj.set path value
    some (.param (assign dict key obj))
  | _, _ :: _, _ => none

/-- `LinksParam.get`: a link that is asked for and not there gets no parameters. -/
def touch : Value V → String → Value V
  | .param dict, key => if (get? dict key).isSome then .param dict
    else .param (assign dict key (.param []))
  | obj, _ => obj

end Value

/-- `TestParam.BasicKeys`. -/
inductive Basic where
  | name
  | topoParam
  | linksParam
  | appParam
  deriving DecidableEq

def Basic.word : Basic → String
  | .name => "name"
  | .topoParam => "topoParam"
  | .linksParam => "linksParam"
  | .appParam => "appParam"

def Basic.ofWord? (word : String) : Option Basic :=
  if word = "name" then some .name
  else if word = "topoParam" then some .topoParam
  else if word = "linksParam" then some .linksParam
  else if word = "appParam" then some .appParam
  else none

/-- A key as it is spelled. -/
structure Key where
  first : String
  rest : List String
  deriving DecidableEq

def Key.spelled (key : Key) : String := ".".intercalate (key.first :: key.rest)

/-- A completed key. -/
structure Name where
  basic : Basic
  path : List String
  deriving DecidableEq

/-- The `__dict__` of a `TestParam` has the basic keys and no other. -/
abbrev TestParam (V : Type) := Basic → Value V

namespace TestParam

/-- It raises when it asks for the attributes of something that has none. -/
def completeKey (t : TestParam V) (key : Key) : Option Name :=
  match Basic.ofWord? key.first with
  | some basic => some ⟨basic, key.rest⟩
  | none => do
    let inApp ← (t .appParam).names?
    if key.first ∈ inApp then some ⟨.appParam, key.first :: key.rest⟩
    else do
      let inTopo ← (t .topoParam).names?
      if key.first ∈ inTopo then some ⟨.topoParam, key.first :: key.rest⟩
      else some ⟨.linksParam, key.first :: key.rest⟩

def at? (t : TestParam V) (name : Name) : Option (Value V) := (t name.basic).at? name.path

/-- The field in which a completed key is set. -/
def field (t : TestParam V) : Name → Value V
  | ⟨.linksParam, link :: _ :: _⟩ => (t .linksParam).touch link
  | name => t name.basic

def setAt (t : TestParam V) (name : Name) (value : Value V) : Option (TestParam V) := do
  let obj ← (t.field name).set name.path value
  some (Function.update t name.basic obj)

def set (t : TestParam V) (key : Key) (value : Value V) : Option (TestParam V) := do
  let name ← t.completeKey key
  t.setAt name value

def template (topo links app : Value V) : TestParam V
  | .name => .str "nameless"
  | .topoParam => topo.copy
  | .linksParam => links.copy
  | .appParam => app.copy

/-- The keys that the constructor takes for its own parameters. -/
def reserved : List Key := [⟨"name", []⟩, ⟨"template", []⟩, ⟨"self", []⟩]

def isBasic (key : Key) : Bool := key.rest.isEmpty && (Basic.ofWord? key.first).isSome

/-- The basic keys, from the keywords if they are among them. -/
def start (template : TestParam V) (name : String) (perm : List (Key × Value V)) : TestParam V
  | .name => .str name
  | basic => ((get? perm ⟨basic.word, []⟩).getD (template basic)).copy

def setAll : TestParam V → List (Key × Value V) → Option (TestParam V)
  | t, [] => some t
  | t, (key, value) :: items => (t.set key value).bind (·.setAll items)

/-- `TestParam(template=.., name=.., **perm)`. -/
def construct (template : TestParam V) (name : String) (perm : List (Key × Value V)) :
    Option (TestParam V) :=
  if perm.any (·.1 ∈ reserved) then none
  else (start template name perm).setAll (perm.filter (!isBasic ·.1))

end TestParam

namespace Value

mutual

lemma copy_copy : (v : Value V) → v.copy.copy = v.copy
  | .plain v => rfl
  | .str s => rfl
  | .param dict => by rw [copy, copy, copyDict_copyDict]

lemma copyDict_copyDict : (dict : List (String × Value V)) →
    copyDict (copyDict dict) = copyDict dict
  | [] => rfl
  | (key, value) :: dict => by
    by_cases h : key = "nokey"
    · simp [copyDict, h, copyDict_copyDict dict]
    · simp [copyDict, h, copy_copy value, copyDict_copyDict dict]

end

/-- What a set does with the first word of its key. -/
lemma set_cons {value obj obj' : Value V} {key : String} {path : List String}
    (done : obj.set (key :: path) value = some obj') : ∃ dict, obj = .param dict ∧
      ((path = [] ∧ obj' = .param (assign dict key value.copy)) ∨
        ∃ child child', path ≠ [] ∧ get? dict key = some child ∧
          child.set path value = some child' ∧ obj' = .param (assign dict key child')) := by
  cases obj with
  | plain v => cases path <;> simp [set] at done
  | str s => cases path <;> simp [set] at done
  | param dict =>
    refine ⟨dict, rfl, ?_⟩
    cases path with
    | nil => exact .inl ⟨rfl, by simpa [set, eq_comm] using done⟩
    | cons next path =>
      simp only [set, bind, Option.bind_eq_some_iff, Option.some.injEq] at done
      obtain ⟨child, held, child', deeper, rfl⟩ := done
      exact .inr ⟨child, child', List.cons_ne_nil _ _, held, deeper, rfl⟩

lemma at?_set {value obj obj' : Value V} {path : List String}
    (done : obj.set path value = some obj') (below : List String) :
    obj'.at? (path ++ below) = value.copy.at? below := by
  induction path generalizing obj obj' with
  | nil =>
    obtain rfl : value.copy = obj' := by simpa [set] using done
    rfl
  | cons key path ih =>
    obtain ⟨dict, rfl, ⟨rfl, rfl⟩ | ⟨child, child', -, -, deeper, rfl⟩⟩ := set_cons done
    · simp [at?]
    · simpa [at?] using ih deeper

lemma at?_set_apart {value obj obj' : Value V} {path other : List String}
    (done : obj.set path value = some obj') (notBelow : ¬ path <+: other)
    (notAbove : ¬ other <+: path) : obj'.at? other = obj.at? other := by
  induction path generalizing obj obj' other with
  | nil => exact absurd List.nil_prefix notBelow
  | cons key path ih =>
    cases other with
    | nil => exact absurd List.nil_prefix notAbove
    | cons key' other =>
      obtain ⟨dict, rfl, ⟨rfl, rfl⟩ | ⟨child, child', -, held, deeper, rfl⟩⟩ := set_cons done
      · have differ : key ≠ key' := by
          rintro rfl
          simp at notBelow
        simp [at?, get?_assign_other _ differ]
      · by_cases same : key = key'
        · subst same
          simp only [List.cons_prefix_cons, true_and] at notBelow notAbove
          simpa [at?, held] using ih deeper notBelow notAbove
        · simp [at?, get?_assign_other _ same]

/-- Setting adds at most the last word of a one-word key. -/
lemma names?_set {value obj obj' : Value V} {path : List String} (inside : path ≠ [])
    (done : obj.set path value = some obj') :
    ∃ before after, obj.names? = some before ∧ obj'.names? = some after ∧
      ∀ f, f ∈ after ↔ f ∈ before ∨ path = [f] := by
  obtain ⟨key, path, rfl⟩ := List.exists_cons_of_ne_nil inside
  obtain ⟨dict, rfl, ⟨rfl, rfl⟩ | ⟨child, child', more, held, -, rfl⟩⟩ := set_cons done
  · refine ⟨_, _, rfl, rfl, fun f => ?_⟩
    simp [mem_keys_assign, eq_comm]
  · refine ⟨_, _, rfl, rfl, fun f => ?_⟩
    have known : key ∈ keys dict := get?_isSome.mp (by simp [held])
    rw [keys_assign, if_pos known]
    simp [more]

/-- Every word of the path but the last names an attribute, and the last is to be one. -/
def Reaches (obj : Value V) (path : List String) : Prop :=
  path = [] ∨ ∃ dict, obj.at? path.dropLast = some (.param dict)

/-- A set raises exactly where it asks for an attribute that is not there. -/
lemma isSome_set {value obj : Value V} {path : List String} :
    (obj.set path value).isSome ↔ obj.Reaches path := by
  induction path generalizing obj with
  | nil => simp [set, Reaches]
  | cons key path ih =>
    cases obj with
    | plain v => cases path <;> simp [set, Reaches, at?]
    | str s => cases path <;> simp [set, Reaches, at?]
    | param dict =>
      cases path with
      | nil => simp [set, Reaches, at?]
      | cons next path =>
        cases held : get? dict key with
        | none => simp [set, Reaches, at?, held]
        | some child =>
          have deeper : (child.set (next :: path) value).isSome ↔ child.Reaches (next :: path) := ih
          simp only [Reaches, reduceCtorEq, false_or] at deeper
          have passes : ((Value.param dict).set (key :: next :: path) value).isSome =
              (child.set (next :: path) value).isSome := by
            cases below : child.set (next :: path) value <;> simp [set, held, below]
          rw [passes, deeper]
          simp [Reaches, at?, held]

lemma at?_touch (obj : Value V) (link : String) {path : List String} (deep : path ≠ [])
    (other : path ≠ [link]) : (obj.touch link).at? path = obj.at? path := by
  obtain ⟨key, path, rfl⟩ := List.exists_cons_of_ne_nil deep
  cases obj with
  | plain v => rfl
  | str s => rfl
  | param dict =>
    rw [touch]
    by_cases there : (get? dict link).isSome
    · rw [if_pos there]
    · rw [if_neg there]
      have missing : get? dict link = none := by simpa using there
      by_cases same : link = key
      · subst same
        obtain ⟨next, path, rfl⟩ := List.exists_cons_of_ne_nil (l := path) (by simpa using other)
        simp [at?, missing, get?]
      · simp [at?, get?_assign_other _ same]

end Value

namespace Name

/-- `m` is `n` or nested in it. -/
def Within (m n : Name) : Prop := m.basic = n.basic ∧ n.path <+: m.path

def Apart (m n : Name) : Prop := ¬ m.Within n ∧ ¬ n.Within m

lemma Apart.symm {m n : Name} (h : m.Apart n) : n.Apart m := ⟨h.2, h.1⟩

lemma Apart.below {m n : Name} (h : m.Apart n) (path : List String) :
    Apart ⟨m.basic, m.path ++ path⟩ n := by
  constructor
  · rintro ⟨same, reached⟩
    obtain shorter | longer := List.prefix_or_prefix_of_prefix reached
      (List.prefix_append m.path path)
    · exact h.1 ⟨same, shorter⟩
    · exact h.2 ⟨same.symm, longer⟩
  · rintro ⟨same, reached⟩
    exact h.2 ⟨same, (List.prefix_append m.path path).trans reached⟩

end Name

lemma Basic.ofWord?_word (basic : Basic) : Basic.ofWord? basic.word = some basic := by
  cases basic <;> decide

lemma Basic.ofWord?_eq_some {word : String} {basic : Basic} :
    Basic.ofWord? word = some basic ↔ word = basic.word := by
  constructor
  · unfold Basic.ofWord?
    split_ifs <;> rintro ⟨⟩ <;> assumption
  · rintro rfl
    exact ofWord?_word basic

namespace TestParam

lemma field_eq (t : TestParam V) {name : Name} (notLinks : name.basic ≠ .linksParam) :
    t.field name = t name.basic := by
  obtain ⟨basic, path⟩ := name
  cases basic with
  | linksParam => exact absurd rfl notLinks
  | name => rfl
  | topoParam => rfl
  | appParam => rfl

lemma at?_field (t : TestParam V) {name : Name} {path : List String}
    (notAbove : ¬ path <+: name.path) : (t.field name).at? path = (t name.basic).at? path := by
  rw [field.eq_def]
  split
  · rename_i link next rest
    refine Value.at?_touch _ link ?_ ?_
    · rintro rfl
      exact notAbove List.nil_prefix
    · rintro rfl
      simp at notAbove
  · rfl

lemma setAt_eq_some {t t' : TestParam V} {name : Name} {value : Value V} :
    t.setAt name value = some t' ↔ ∃ obj, (t.field name).set name.path value = some obj ∧
      Function.update t name.basic obj = t' := by
  simp [setAt, Option.bind_eq_some_iff]

lemma at?_setAt {t t' : TestParam V} {name : Name} {value : Value V}
    (done : t.setAt name value = some t') (below : List String) :
    t'.at? ⟨name.basic, name.path ++ below⟩ = value.copy.at? below := by
  obtain ⟨obj, reached, rfl⟩ := setAt_eq_some.mp done
  simpa [at?] using Value.at?_set reached below

lemma at?_setAt_apart {t t' : TestParam V} {name other : Name} {value : Value V}
    (done : t.setAt name value = some t') (apart : other.Apart name) :
    t'.at? other = t.at? other := by
  obtain ⟨obj, reached, rfl⟩ := setAt_eq_some.mp done
  by_cases same : other.basic = name.basic
  · have notBelow : ¬ name.path <+: other.path := fun h => apart.1 ⟨same, h⟩
    have notAbove : ¬ other.path <+: name.path := fun h => apart.2 ⟨same.symm, h⟩
    have kept := Value.at?_set_apart reached notBelow notAbove
    simp only [at?, same, Function.update_self, kept]
    exact t.at?_field notAbove
  · simp [at?, same]

lemma set_eq_some {t t' : TestParam V} {key : Key} {value : Value V} :
    t.set key value = some t' ↔
      ∃ name, t.completeKey key = some name ∧ t.setAt name value = some t' := by
  simp [set, Option.bind_eq_some_iff]

/-- The key can be completed, and what it leads through has the attributes that it names. -/
def Accepts (t : TestParam V) (key : Key) : Prop :=
  ∃ name, t.completeKey key = some name ∧ (t.field name).Reaches name.path

lemma isSome_set {t : TestParam V} {key : Key} {value : Value V} :
    (t.set key value).isSome ↔ t.Accepts key := by
  rw [Accepts]
  cases completed : t.completeKey key with
  | none => simp [set, completed]
  | some name =>
    have reached : ((t.field name).set name.path value).isSome ↔
        (t.field name).Reaches name.path := Value.isSome_set
    simp only [Option.some.injEq, exists_eq_left', ← reached, set, completed, setAt]
    cases found : (t.field name).set name.path value <;> simp [found]

lemma completeKey_basic (t : TestParam V) (basic : Basic) (rest : List String) :
    t.completeKey ⟨basic.word, rest⟩ = some ⟨basic, rest⟩ := by
  simp [completeKey, Basic.ofWord?_word]

lemma isBasic_iff {key : Key} : isBasic key = true ↔ ∃ basic : Basic, key = ⟨basic.word, []⟩ := by
  obtain ⟨first, rest⟩ := key
  simp [isBasic, Option.isSome_iff_exists, Basic.ofWord?_eq_some, and_comm]

/-- A completed key is spelled out, or all its words are the path; its first word is then
found in the field it is completed with, unless that is `linksParam`. -/
lemma completeKey_eq_some {t : TestParam V} {key : Key} {name : Name}
    (h : t.completeKey key = some name) :
    key = ⟨name.basic.word, name.path⟩ ∨
      name.path = key.first :: key.rest ∧ (name.basic ≠ .linksParam →
        ∃ words, (t name.basic).names? = some words ∧ key.first ∈ words) := by
  rw [completeKey] at h
  cases known : Basic.ofWord? key.first with
  | some basic =>
    rw [known] at h
    obtain rfl := Option.some.inj h
    obtain ⟨first, rest⟩ := key
    left
    exact congrArg (Key.mk · rest) (Basic.ofWord?_eq_some.mp known)
  | none =>
    right
    simp only [known, bind, Option.bind_eq_some_iff] at h
    obtain ⟨inApp, app, h⟩ := h
    split at h
    · obtain rfl := Option.some.inj h
      exact ⟨rfl, fun _ => ⟨inApp, app, by assumption⟩⟩
    · obtain ⟨inTopo, topo, h⟩ := Option.bind_eq_some_iff.mp h
      split at h
      · obtain rfl := Option.some.inj h
        exact ⟨rfl, fun _ => ⟨inTopo, topo, by assumption⟩⟩
      · obtain rfl := Option.some.inj h
        exact ⟨rfl, fun notLinks => absurd rfl notLinks⟩

lemma completeKey_inside {t : TestParam V} {key : Key} {name : Name}
    (nested : isBasic key = false) (h : t.completeKey key = some name) : name.path ≠ [] := by
  obtain spelled | ⟨path, -⟩ := completeKey_eq_some h
  · intro empty
    have bare : isBasic key = true := by
      rw [spelled, empty]
      simp [isBasic, Basic.ofWord?_word]
    exact absurd bare (by simp [nested])
  · rw [path]
    exact List.cons_ne_nil _ _

/-- A field outside `linksParam` gets a new attribute only under its own spelled name. -/
lemma names?_set {t t' : TestParam V} {key : Key} {value : Value V} {basic : Basic}
    (notLinks : basic ≠ .linksParam) (nested : isBasic key = false)
    (done : t.set key value = some t') {before : List String}
    (held : (t basic).names? = some before) :
    ∃ after, (t' basic).names? = some after ∧ before ⊆ after ∧
      ∀ f ∈ after, f ∈ before ∨ key = ⟨basic.word, [f]⟩ := by
  obtain ⟨name, completed, done⟩ := set_eq_some.mp done
  have inside := completeKey_inside nested completed
  obtain ⟨obj, reached, rfl⟩ := setAt_eq_some.mp done
  by_cases same : basic = name.basic
  · rw [t.field_eq (same ▸ notLinks)] at reached
    obtain ⟨before', after, held', grown, members⟩ := Value.names?_set inside reached
    rw [← same, held] at held'
    obtain rfl := Option.some.inj held'
    refine ⟨after, by simpa [same] using grown, fun f hf => (members f).mpr (.inl hf), ?_⟩
    intro f hf
    obtain old | new := (members f).mp hf
    · exact .inl old
    obtain spelled | ⟨path, known⟩ := completeKey_eq_some completed
    · right
      rw [spelled, new, same]
    · left
      obtain ⟨fields, heldFields, inFields⟩ := known (same ▸ notLinks)
      rw [path, List.cons.injEq] at new
      rw [← same, held] at heldFields
      obtain rfl := Option.some.inj heldFields
      exact new.1 ▸ inFields
  · exact ⟨before, by simpa [Function.update_of_ne same] using held, List.Subset.refl _,
      fun f hf => .inl hf⟩

lemma setAll_cons {t t' : TestParam V} {key : Key} {value : Value V}
    {items : List (Key × Value V)} : t.setAll ((key, value) :: items) = some t' ↔
      ∃ s, t.set key value = some s ∧ s.setAll items = some t' := by
  simp [setAll, Option.bind_eq_some_iff]

/-- The items before one are set, and that one is not accepted any more. -/
def Stuck (t : TestParam V) (items : List (Key × Value V)) : Prop :=
  ∃ before item after s, items = before ++ item :: after ∧ t.setAll before = some s ∧
    ¬ s.Accepts item.1

lemma setAll_eq_none {t : TestParam V} {items : List (Key × Value V)} :
    t.setAll items = none ↔ t.Stuck items := by
  induction items generalizing t with
  | nil => simp [setAll, Stuck]
  | cons item items ih =>
    obtain ⟨key, value⟩ := item
    constructor
    · intro raised
      cases first : t.set key value with
      | none =>
        refine ⟨[], (key, value), items, t, rfl, rfl, fun accepts => ?_⟩
        have taken : (t.set key value).isSome := isSome_set.mpr accepts
        rw [first] at taken
        cases taken
      | some s =>
        rw [setAll, first, Option.bind_some, ih] at raised
        obtain ⟨before, item, after, s', rfl, done, stuck⟩ := raised
        exact ⟨(key, value) :: before, item, after, s', rfl, setAll_cons.mpr ⟨s, first, done⟩, stuck⟩
    · rintro ⟨before, item, after, s', split, done, stuck⟩
      cases before with
      | nil =>
        obtain ⟨rfl, rfl⟩ := List.cons.inj split
        obtain rfl := Option.some.inj done
        have refused : t.set key value = none :=
          Option.not_isSome_iff_eq_none.mp (mt isSome_set.mp stuck)
        rw [setAll, refused, Option.bind_none]
      | cons head before =>
        obtain ⟨rfl, rfl⟩ := List.cons.inj split
        obtain ⟨s, first, done⟩ := setAll_cons.mp done
        rw [setAll, first, Option.bind_some, ih]
        exact ⟨before, item, after, s', rfl, done, stuck⟩

lemma names?_setAll {t t' : TestParam V} {items : List (Key × Value V)} {basic : Basic}
    (notLinks : basic ≠ .linksParam) (nested : ∀ item ∈ items, isBasic item.1 = false)
    (done : t.setAll items = some t') {before : List String}
    (held : (t basic).names? = some before) :
    ∃ after, (t' basic).names? = some after ∧ before ⊆ after ∧
      ∀ f ∈ after, f ∈ before ∨ ⟨basic.word, [f]⟩ ∈ keys items := by
  induction items generalizing t before with
  | nil =>
    obtain rfl := Option.some.inj done
    exact ⟨before, held, List.Subset.refl _, fun f hf => .inl hf⟩
  | cons item items ih =>
    obtain ⟨key, value⟩ := item
    obtain ⟨s, first, rest⟩ := setAll_cons.mp done
    obtain ⟨middle, heldS, grownS, newS⟩ :=
      names?_set notLinks (nested _ (List.mem_cons_self ..)) first held
    obtain ⟨after, held', grown, new⟩ :=
      ih (fun item h => nested item (List.mem_cons_of_mem _ h)) rest heldS
    refine ⟨after, held', List.Subset.trans grownS grown, fun f hf => ?_⟩
    obtain old | later := new f hf
    · obtain old | here := newS f old
      · exact .inl old
      · exact .inr (here ▸ List.mem_cons_self ..)
    · exact .inr (List.mem_cons_of_mem _ later)

/-- No two of the used keys name, in `t`, the same or a nested parameter. -/
def Unclashing (t : TestParam V) (Used : Key → Prop) : Prop :=
  ∀ key key', Used key → Used key' → key ≠ key' → ∀ name name',
    t.completeKey key = some name → t.completeKey key' = some name' → name.Apart name'

lemma Unclashing.of_subset {t : TestParam V} {Used Fewer : Key → Prop}
    (clear : t.Unclashing Used) (h : ∀ key, Fewer key → Used key) : t.Unclashing Fewer :=
  fun key key' used used' => clear key key' (h key used) (h key' used')

/-- Without clashes a key goes on naming what it named when it was set. -/
lemma completeKey_setAll {t t' : TestParam V} {items : List (Key × Value V)}
    (nested : ∀ item ∈ items, isBasic item.1 = false) (done : t.setAll items = some t')
    (clear : t'.Unclashing (· ∈ keys items)) {key : Key} (listed : key ∈ keys items) {name : Name}
    (completed : t.completeKey key = some name) : t'.completeKey key = some name := by
  -- A word that is new in a field was set under the field's own name.
  have clash (basic : Basic) (known : Basic.ofWord? key.first = none)
      (new : ⟨basic.word, [key.first]⟩ ∈ keys items) :
      t'.completeKey key ≠ some ⟨basic, key.first :: key.rest⟩ := by
    intro other
    have differ : key ≠ ⟨basic.word, [key.first]⟩ := by
      intro same
      rw [same, Basic.ofWord?_word] at known
      cases known
    have apart := clear key _ listed new differ _ _ other (t'.completeKey_basic basic _)
    exact apart.1 ⟨rfl, by simp⟩
  rw [completeKey] at completed
  cases known : Basic.ofWord? key.first with
  | some basic =>
    rw [known] at completed
    rw [completeKey, known]
    exact completed
  | none =>
    simp only [known, bind, Option.bind_eq_some_iff] at completed
    obtain ⟨inApp, app, completed⟩ := completed
    obtain ⟨inApp', app', grownApp, newApp⟩ :=
      @names?_setAll _ _ _ _ .appParam (by decide) nested done _ app
    by_cases found : key.first ∈ inApp
    · rw [if_pos found] at completed
      rw [completeKey, known]
      simpa [app', grownApp found] using completed
    · rw [if_neg found] at completed
      obtain ⟨inTopo, topo, completed⟩ := Option.bind_eq_some_iff.mp completed
      obtain ⟨inTopo', topo', grownTopo, newTopo⟩ :=
        @names?_setAll _ _ _ _ .topoParam (by decide) nested done _ topo
      have stillNot : key.first ∉ inApp' := by
        intro later
        refine clash .appParam known ((newApp _ later).resolve_left found) ?_
        simp [completeKey, known, app', later]
      by_cases foundTopo : key.first ∈ inTopo
      · rw [if_pos foundTopo] at completed
        rw [completeKey, known]
        simpa [app', stillNot, topo', grownTopo foundTopo] using completed
      · rw [if_neg foundTopo] at completed
        have stillNotTopo : key.first ∉ inTopo' := by
          intro later
          refine clash .topoParam known ((newTopo _ later).resolve_left foundTopo) ?_
          simp [completeKey, known, app', stillNot, topo', later]
        rw [completeKey, known]
        simpa [app', stillNot, topo', stillNotTopo] using completed

/-- Each key ends with its own value, and what no key names stays. -/
theorem at?_setAll {t t' : TestParam V} {items : List (Key × Value V)}
    (nested : ∀ item ∈ items, isBasic item.1 = false) (unique : (keys items).Nodup)
    (done : t.setAll items = some t') (clear : t'.Unclashing (· ∈ keys items)) :
    (∀ item ∈ items, ∃ name, t'.completeKey item.1 = some name ∧
      ∀ below, t'.at? ⟨name.basic, name.path ++ below⟩ = item.2.copy.at? below) ∧
    ∀ other : Name, (∀ key ∈ keys items, ∀ name, t'.completeKey key = some name →
      other.Apart name) → t'.at? other = t.at? other := by
  induction items generalizing t with
  | nil =>
    obtain rfl := Option.some.inj done
    exact ⟨fun item h => absurd h List.not_mem_nil, fun _ _ => rfl⟩
  | cons item items ih =>
    obtain ⟨key, value⟩ := item
    obtain ⟨s, first, rest⟩ := setAll_cons.mp done
    obtain ⟨name, completed, set⟩ := set_eq_some.mp first
    have fresh : key ∉ keys items := (List.nodup_cons.mp unique).1
    have nested' : ∀ item ∈ items, isBasic item.1 = false :=
      fun item h => nested item (List.mem_cons_of_mem _ h)
    have tail : t'.Unclashing (· ∈ keys items) :=
      clear.of_subset fun _ => List.mem_cons_of_mem key
    obtain ⟨later, kept⟩ := ih nested' (List.nodup_cons.mp unique).2 rest tail
    have lasting : t'.completeKey key = some name :=
      completeKey_setAll nested done clear (List.mem_cons_self ..) completed
    constructor
    · intro item h
      obtain here | h := List.mem_cons.mp h
      · subst here
        refine ⟨name, lasting, fun below => ?_⟩
        have untouched : t'.at? ⟨name.basic, name.path ++ below⟩ =
            s.at? ⟨name.basic, name.path ++ below⟩ := by
          refine kept _ fun key' h' name' completed' => ?_
          have differ : key ≠ key' := fun same => fresh (same ▸ h')
          have apart := clear key key' (List.mem_cons_self ..) (List.mem_cons_of_mem _ h')
            differ name name' lasting completed'
          exact apart.below below
        exact untouched.trans (at?_setAt set below)
      · exact later item h
    · intro other apart
      have untouched := kept other fun key' h' => apart key' (List.mem_cons_of_mem _ h')
      exact untouched.trans (at?_setAt_apart set (apart key (List.mem_cons_self ..) name lasting))

lemma construct_eq_some {template t : TestParam V} {name : String} {perm : List (Key × Value V)} :
    construct template name perm = some t ↔ (∀ key ∈ keys perm, key ∉ reserved) ∧
      (start template name perm).setAll (perm.filter (!isBasic ·.1)) = some t := by
  simp [construct, keys]

/-- The constructor raises at a keyword that is one of its own parameters, and else only at one
that is not accepted after those before it. -/
theorem construct_eq_none {template : TestParam V} {name : String} {perm : List (Key × Value V)} :
    construct template name perm = none ↔ (∃ key ∈ keys perm, key ∈ reserved) ∨
      (start template name perm).Stuck (perm.filter (!isBasic ·.1)) := by
  rw [← setAll_eq_none, construct]
  by_cases taken : ∃ key ∈ keys perm, key ∈ reserved
  · have any : perm.any (·.1 ∈ reserved) = true := by simpa [keys] using taken
    simp [any, taken]
  · have any : perm.any (·.1 ∈ reserved) = false := by simpa [keys] using taken
    simp [any, taken]

lemma start_eq (template : TestParam V) (name : String) (perm : List (Key × Value V))
    {basic : Basic} (other : basic ≠ .name) : start template name perm basic =
      ((get? perm ⟨basic.word, []⟩).getD (template basic)).copy := by
  cases basic with
  | name => exact absurd rfl other
  | topoParam => rfl
  | linksParam => rfl
  | appParam => rfl

lemma keys_filter {perm : List (Key × Value V)} {key : Key} :
    key ∈ keys (perm.filter (!isBasic ·.1)) ↔ key ∈ keys perm ∧ isBasic key = false := by
  simp [keys]

/-- A test parameter that could be built has the keywords' values, and the template's copy
of every parameter that no keyword names. -/
theorem at?_construct {template t : TestParam V} {name : String} {perm : List (Key × Value V)}
    (unique : (keys perm).Nodup) (done : construct template name perm = some t)
    (clear : t.Unclashing (· ∈ keys perm)) :
    (∀ item ∈ perm, ∃ name, t.completeKey item.1 = some name ∧
      ∀ below, t.at? ⟨name.basic, name.path ++ below⟩ = item.2.copy.at? below) ∧
    ∀ other : Name, other.basic ≠ .name → (∀ key ∈ keys perm, ∀ name,
      t.completeKey key = some name → other.Apart name) →
        t.at? other = (template other.basic).copy.at? other.path := by
  obtain ⟨free, done⟩ := construct_eq_some.mp done
  have nested : ∀ item ∈ perm.filter (!isBasic ·.1), isBasic item.1 = false := by simp
  have unique' : (keys (perm.filter (!isBasic ·.1))).Nodup :=
    unique.sublist (List.filter_sublist.map _)
  have clear' : t.Unclashing (· ∈ keys (perm.filter (!isBasic ·.1))) :=
    clear.of_subset fun key h => (keys_filter.mp h).1
  obtain ⟨set, kept⟩ := at?_setAll nested unique' done clear'
  constructor
  · intro item h
    cases bare : isBasic item.1 with
    | false => exact set item (by simp [h, bare])
    | true =>
      obtain ⟨basic, spelled⟩ := isBasic_iff.mp bare
      have completed : t.completeKey item.1 = some ⟨basic, []⟩ := by
        rw [spelled]
        exact t.completeKey_basic basic []
      have listed : item.1 ∈ keys perm := List.mem_map_of_mem h
      have notName : basic ≠ .name := by
        rintro rfl
        exact free _ listed (by simp [spelled, reserved, Basic.word])
      refine ⟨_, completed, fun below => ?_⟩
      have untouched : t.at? ⟨basic, below⟩ = (start template name perm).at? ⟨basic, below⟩ := by
        refine kept _ fun key' h' name' completed' => ?_
        obtain ⟨listed', nested'⟩ := keys_filter.mp h'
        have differ : item.1 ≠ key' := by
          rintro same
          rw [← same, bare] at nested'
          cases nested'
        exact (clear _ _ listed listed' differ _ _ completed completed').below below
      have given : get? perm ⟨basic.word, []⟩ = some item.2 := by
        rw [← spelled]
        exact get?_of_mem unique h
      rw [List.nil_append, untouched, at?, start_eq _ _ _ notName, given]
      rfl
  · intro other notName apart
    have untouched := kept other fun key' h' => apart key' (keys_filter.mp h').1
    have absent : get? perm ⟨other.basic.word, []⟩ = none := by
      rw [get?_eq_none]
      intro listed
      exact (apart _ listed _ (t.completeKey_basic _ _)).1 ⟨rfl, List.nil_prefix⟩
    rw [untouched, at?, start_eq _ _ _ notName, absent]
    rfl

end TestParam

namespace Value

def isLeaf : Value V → Bool
  | .param _ => false
  | _ => true

lemma copy_leaf {value : Value V} (leaf : value.isLeaf = true) : value.copy = value := by
  cases value with
  | plain v => rfl
  | str s => rfl
  | param dict => cases leaf

/-- Keywords with plain data are set as they are. -/
lemma copyDict_leaves {dict : List (String × Value V)}
    (leaves : ∀ item ∈ dict, item.1 ≠ "nokey" ∧ item.2.isLeaf = true) : copyDict dict = dict := by
  induction dict with
  | nil => rfl
  | cons item dict ih =>
    obtain ⟨key, value⟩ := item
    obtain ⟨named, leaf⟩ := leaves _ (List.mem_cons_self ..)
    have rest := ih fun item h => leaves item (List.mem_cons_of_mem _ h)
    simp only at named leaf
    simp [copyDict, named, copy_leaf leaf, rest]

lemma get?_copyDict (dict : List (String × Value V)) {key : String} (named : key ≠ "nokey") :
    get? (copyDict dict) key = (get? dict key).map copy := by
  induction dict with
  | nil => rfl
  | cons item dict ih =>
    obtain ⟨own, value⟩ := item
    by_cases drop : own = "nokey"
    · simp [copyDict, drop, get?, Ne.symm named, ih]
    · by_cases here : own = key
      · simp [copyDict, get?, here, named]
      · simp [copyDict, drop, get?, here, ih]

lemma at?_copy (value : Value V) {path : List String} (named : "nokey" ∉ path) :
    value.copy.at? path = (value.at? path).map copy := by
  induction path generalizing value with
  | nil => rfl
  | cons key path ih =>
    obtain ⟨other, below⟩ := List.ne_and_not_mem_of_not_mem_cons named
    cases value with
    | plain v => rfl
    | str s => rfl
    | param dict =>
      rw [copy, at?, at?, get?_copyDict dict (Ne.symm other)]
      cases get? dict key with
      | none => rfl
      | some child => exact ih child below

end Value

namespace Value

def setLinks : Value V → List (String × String × Value V) → Option (Value V)
  | obj, [] => some obj
  | obj, (linkName, key, value) :: dic =>
    ((obj.touch linkName).set [linkName, key] value).bind (setLinks · dic)

/-- `LinksParam(defaultLP, dic)`. -/
def linksParam (defaultLP : Value V) (dic : List (String × String × Value V)) :
    Option (Value V) :=
  setLinks (.param [("defaultLP", defaultLP.copy)]) dic

lemma objects_assign {dict : List (String × Value V)}
    (objects : ∀ item ∈ dict, item.2.isLeaf = false)
    (unique : (keys dict).Nodup) (key : String) (own : List (String × Value V)) :
    ∀ item ∈ assign dict key (.param own), item.2.isLeaf = false := by
  intro item h
  have held := get?_of_mem (nodup_assign unique _ _) h
  rw [get?_assign] at held
  split at held
  · rw [← Option.some.inj held]
    rfl
  · exact objects _ (mem_of_get? held)

/-- Setting parameters of links always succeeds and leaves `defaultLP` alone. -/
lemma setLinks_spec {dict : List (String × Value V)}
    (objects : ∀ item ∈ dict, item.2.isLeaf = false)
    (unique : (keys dict).Nodup) {dic : List (String × String × Value V)}
    (named : ∀ item ∈ dic, item.1 ≠ "defaultLP") :
    ∃ obj, setLinks (.param dict) dic = some obj ∧
      ∀ field, obj.at? ["defaultLP", field] = (param dict).at? ["defaultLP", field] := by
  induction dic generalizing dict with
  | nil => exact ⟨_, rfl, fun field => rfl⟩
  | cons item dic ih =>
    obtain ⟨linkName, key, value⟩ := item
    obtain ⟨touched, isTouched, objects', unique', there⟩ : ∃ touched,
        (param dict).touch linkName = .param touched ∧
          (∀ item ∈ touched, item.2.isLeaf = false) ∧ (keys touched).Nodup ∧
            linkName ∈ keys touched := by
      by_cases known : (get? dict linkName).isSome
      · exact ⟨dict, by simp [touch, known], objects, unique, get?_isSome.mp known⟩
      · exact ⟨assign dict linkName (.param []), by simp [touch, known],
          objects_assign objects unique _ _, nodup_assign unique _ _,
          mem_keys_assign.mpr (.inr rfl)⟩
    obtain ⟨child, held⟩ := Option.isSome_iff_exists.mp (get?_isSome.mpr there)
    have isObject := objects' _ (mem_of_get? held)
    cases child with
    | plain v => cases isObject
    | str s => cases isObject
    | param own =>
      have done : ((param dict).touch linkName).set [linkName, key] value =
          some (.param (assign touched linkName (.param (assign own key value.copy)))) := by
        rw [isTouched]
        simp [set, held]
      obtain ⟨obj, rest, kept⟩ := ih
        (objects_assign objects' unique' linkName (assign own key value.copy))
        (nodup_assign unique' _ _)
        (fun item h => named item (List.mem_cons_of_mem _ h))
      refine ⟨obj, by rw [setLinks, done, Option.bind_some, rest], fun field => ?_⟩
      have other : linkName ≠ "defaultLP" := named _ (List.mem_cons_self ..)
      rw [kept, at?_set_apart done (by simp [other]) (by simp [other.symm])]
      exact at?_touch _ linkName (by simp) (by simp)

lemma linksParam_spec (lp : List (String × Value V)) {dic : List (String × String × Value V)}
    (named : ∀ item ∈ dic, item.1 ≠ "defaultLP") :
    ∃ obj, linksParam (.param lp) dic = some obj ∧
      ∀ field, obj.at? ["defaultLP", field] = get? (copyDict lp) field := by
  obtain ⟨obj, done, kept⟩ := @setLinks_spec _ [("defaultLP", (param lp).copy)]
    (by simp [copy, isLeaf]) (by simp [keys]) _ named
  refine ⟨obj, done, fun field => (kept field).trans ?_⟩
  simp only [at?, get?, if_true, Option.bind_some, copy]
  cases get? (copyDict lp) field <;> rfl

end Value

namespace Value

mutual

/-- A value without its data. -/
def shape : Value V → Value Unit
  | .plain _ => .plain ()
  | .str _ => .plain ()
  | .param dict => .param (shapeDict dict)

def shapeDict : List (String × Value V) → List (String × Value Unit)
  | [] => []
  | (key, value) :: dict => (key, value.shape) :: shapeDict dict

end

lemma keys_shapeDict (dict : List (String × Value V)) : keys (shapeDict dict) = keys dict := by
  induction dict with
  | nil => rfl
  | cons item dict ih => simpa [shapeDict, keys] using ih

lemma get?_shapeDict (dict : List (String × Value V)) (key : String) :
    get? (shapeDict dict) key = (get? dict key).map shape := by
  induction dict with
  | nil => rfl
  | cons item dict ih =>
    obtain ⟨own, value⟩ := item
    by_cases here : own = key
    · simp [shapeDict, get?, here]
    · simp [shapeDict, get?, here, ih]

lemma shapeDict_assign (dict : List (String × Value V)) (key : String) (value : Value V) :
    shapeDict (assign dict key value) = assign (shapeDict dict) key value.shape := by
  induction dict with
  | nil => rfl
  | cons item dict ih =>
    obtain ⟨own, held⟩ := item
    by_cases here : own = key
    · simp [shapeDict, assign, here]
    · simp [shapeDict, assign, here, ih]

mutual

lemma shape_copy : (v : Value V) → v.copy.shape = v.shape.copy
  | .plain v => rfl
  | .str s => rfl
  | .param dict => by rw [copy, shape, shape, copy, shapeDict_copyDict]

lemma shapeDict_copyDict : (dict : List (String × Value V)) →
    shapeDict (copyDict dict) = copyDict (shapeDict dict)
  | [] => rfl
  | (key, value) :: dict => by
    by_cases drop : key = "nokey"
    · simp [copyDict, shapeDict, drop, shapeDict_copyDict dict]
    · simp [copyDict, shapeDict, drop, shape_copy value, shapeDict_copyDict dict]

end

lemma names?_shape (obj : Value V) : obj.shape.names? = obj.names? := by
  cases obj with
  | plain v => rfl
  | str s => rfl
  | param dict => exact congrArg some (keys_shapeDict dict)

lemma shape_touch (obj : Value V) (link : String) :
    (obj.touch link).shape = obj.shape.touch link := by
  cases obj with
  | plain v => rfl
  | str s => rfl
  | param dict =>
    by_cases there : (get? dict link).isSome
    · simp [touch, shape, get?_shapeDict, there]
    · simp [touch, shape, get?_shapeDict, there, shapeDict_assign, shapeDict]

lemma shape_set (obj value : Value V) (path : List String) :
    (obj.set path value).map shape = obj.shape.set path value.shape := by
  induction path generalizing obj with
  | nil => simp [set, shape_copy]
  | cons key path ih =>
    cases obj with
    | plain v => cases path <;> rfl
    | str s => cases path <;> rfl
    | param dict =>
      cases path with
      | nil => simp [set, shape, shapeDict_assign, shape_copy]
      | cons next path =>
        simp only [set, shape, get?_shapeDict]
        cases get? dict key with
        | none => rfl
        | some child =>
          have below := ih child
          cases reached : child.set (next :: path) value with
          | none =>
            rw [reached] at below
            simp [← below, reached]
          | some child' =>
            rw [reached] at below
            simp [← below, reached, shape, shapeDict_assign]

lemma shape_setLinks (obj : Value V) (dic : List (String × String × Value V)) :
    (setLinks obj dic).map shape =
      setLinks obj.shape (dic.map fun item => (item.1, item.2.1, item.2.2.shape)) := by
  induction dic generalizing obj with
  | nil => rfl
  | cons item dic ih =>
    obtain ⟨linkName, key, value⟩ := item
    rw [List.map_cons, setLinks, setLinks, ← shape_touch, ← shape_set]
    cases (obj.touch linkName).set [linkName, key] value with
    | none => rfl
    | some obj => exact ih obj

lemma shape_linksParam (defaultLP : Value V) (dic : List (String × String × Value V)) :
    (linksParam defaultLP dic).map shape = linksParam defaultLP.shape
      (dic.map fun item => (item.1, item.2.1, item.2.2.shape)) := by
  rw [linksParam, shape_setLinks, linksParam, ← shape_copy]
  rfl

/-- Of plain data only the keys are left. -/
lemma shapeDict_leaves {dict : List (String × Value V)}
    (leaves : ∀ item ∈ dict, item.2.isLeaf = true) :
    shapeDict dict = (keys dict).map fun key => (key, .plain ()) := by
  induction dict with
  | nil => rfl
  | cons item dict ih =>
    obtain ⟨key, value⟩ := item
    have leaf := leaves _ (List.mem_cons_self ..)
    have rest := ih fun item h => leaves item (List.mem_cons_of_mem _ h)
    cases value with
    | plain v => simp [shapeDict, rest, keys, shape]
    | str s => simp [shapeDict, rest, keys, shape]
    | param own => cases leaf

end Value

namespace TestParam

def shape (t : TestParam V) : TestParam Unit := fun basic => (t basic).shape

lemma completeKey_shape (t : TestParam V) (key : Key) :
    t.shape.completeKey key = t.completeKey key := by
  simp only [completeKey, shape, Value.names?_shape]

lemma field_shape (t : TestParam V) (name : Name) : t.shape.field name = (t.field name).shape := by
  rw [field.eq_def, field.eq_def]
  split
  · exact (Value.shape_touch _ _).symm
  · rfl

lemma shape_set (t : TestParam V) (key : Key) (value : Value V) :
    (t.set key value).map shape = t.shape.set key value.shape := by
  rw [set, set, completeKey_shape]
  cases t.completeKey key with
  | none => rfl
  | some name =>
    have reached := Value.shape_set (t.field name) value name.path
    simp only [Option.bind_eq_bind, Option.bind_some, setAt, field_shape, ← reached]
    cases (t.field name).set name.path value with
    | none => rfl
    | some obj =>
      simp only [Option.map_some, Option.bind_some]
      congr 1
      funext basic
      by_cases same : basic = name.basic
      · subst same
        simp [shape]
      · simp [shape, same]

lemma isSome_setAll_of_shape {t t' : TestParam V} (same : t.shape = t'.shape)
    (items : List (Key × Value V)) : (t.setAll items).isSome = (t'.setAll items).isSome := by
  induction items generalizing t t' with
  | nil => rfl
  | cons item items ih =>
    obtain ⟨key, value⟩ := item
    have step : (t.set key value).map shape = (t'.set key value).map shape := by
      rw [shape_set, shape_set, same]
    rw [setAll, setAll]
    cases first : t.set key value with
    | none =>
      rw [first] at step
      rw [Option.map_eq_none_iff.mp step.symm]
    | some s =>
      rw [first] at step
      obtain ⟨s', first', alike⟩ := Option.map_eq_some_iff.mp step.symm
      rw [first']
      exact ih alike.symm

/-- Templates of one shape accept the same keywords. -/
theorem isSome_construct_of_shape {template template' : TestParam V}
    (same : template.shape = template'.shape) (name : String) (perm : List (Key × Value V)) :
    (construct template name perm).isSome = (construct template' name perm).isSome := by
  have alike : (start template name perm).shape = (start template' name perm).shape := by
    funext basic
    have field : (template basic).shape = (template' basic).shape := congrFun same basic
    by_cases given : basic = .name
    · subst given
      rfl
    · rw [shape, shape, start_eq _ _ _ given, start_eq _ _ _ given, Value.shape_copy,
        Value.shape_copy]
      cases get? perm ⟨basic.word, []⟩ with
      | none => exact congrArg Value.copy field
      | some value => rfl
  rw [construct, construct]
  split
  · rfl
  · exact isSome_setAll_of_shape alike _

end TestParam

end Params
