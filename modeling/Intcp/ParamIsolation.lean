import Intcp.ParamSets
import Mathlib.Data.Rat.Defs

/-!
# Experiment definitions and the defaults they share

`MyParam.getTestParamSet`: every definition calls `DefaultLP.set(..)` and
`DefaultAP.set(..)`, which change the module's own objects and return them; the
constructors copy afterwards. The keywords of these calls are here as the source has
them. The topology, the links and the `add` calls of a definition do not read the
defaults, so they are a parameter.
-/

namespace ParamIsolation

open Params Dicts ParamSets

/-- Plain data; a decimal literal is the number it writes, and `word` is a string in a list. -/
inductive Datum where
  | none
  | bool (b : Bool)
  | num (q : Rat)
  | word (s : String)
  | list (items : List Datum)

def num (q : Rat) : Value Datum := .plain (.num q)

def flag (b : Bool) : Value Datum := .plain (.bool b)

abbrev Keywords := List (String × Value Datum)

def DefaultLP : Keywords :=
  [("bw", num 20), ("rtt", num 100), ("loss", num 0), ("itmTotal", num 20), ("itmDown", num 0),
    ("varBw", num 0), ("varIntv", num 5), ("varMethod", .str "square")]

def DefaultAP : Keywords :=
  [("max_queue_size", num 1000), ("txqueuelen", num 1000), ("protocol", .str "INTCP"),
    ("e2eCC", .str "cubic"), ("midCC", .str "nopep"), ("sendTime", num 180), ("sendRound", num 1),
    ("dynamic", num 0), ("dynamic_intv", num 1), ("data_size", num 0),
    ("dynamic_complete", flag true), ("dynamic_gsl_loss", num 1), ("dynamic_isl_loss", num (1/10)),
    ("dynamic_ground_link_loss", num 0), ("dynamic_ground_link_rtt", num 50),
    ("dynamic_uplink_bw", num 5), ("dynamic_downlink_bw", num 20),
    ("dynamic_ground_link_bw", num 20), ("dynamic_isl_bw", num 20),
    ("dynamic_bw_fluct", flag false), ("test_type", .str "throughputTest"),
    ("analyse_callback", .str "lineChart"), ("sendq_length", num 10000), ("src", num (-1)),
    ("dst", num (-1)), ("route_algorithm", .str "with_isl"), ("flowNum", num 3),
    ("flowIntv", num 20), ("singlePath", flag true), ("coverage", num 1)]

/-- The keywords of `DefaultLP.set`, where there are link parameters, and of `DefaultAP.set`. -/
structure Definition where
  tpsetName : String
  links : Option Keywords
  app : Keywords

def definitions : List Definition := [
  ⟨"static_test", some [("bw", num 40), ("loss", num 1), ("rtt", num 10)],
    [("sendTime", num 60), ("test_type", .str "throughputWithOwd"), ("protocol", .str "TCP"),
      ("analyse_callback", .str "lineChart_with_loss")]⟩,
  ⟨"large_hop_num", some [("bw", num 20), ("loss", num 1), ("rtt", num 10)],
    [("sendTime", num 60), ("test_type", .str "throughputWithOwd")]⟩,
  ⟨"dynamic_test", none,
    [("dynamic", num 1), ("dynamic_complete", flag false), ("sendTime", num 600)]⟩,
  ⟨"dynamic_complex_test", none,
    [("dynamic", num 1), ("dynamic_complete", flag false), ("sendTime", num 600),
      ("dynamic_intv", num 1)]⟩,
  ⟨"dynamic_sim_test_1", none,
    [("dynamic", num 1), ("dynamic_complete", flag false), ("sendTime", num 600)]⟩,
  ⟨"dynamic_sim_test_2", none,
    [("dynamic", num 1), ("dynamic_complete", flag false), ("dynamic_bw_fluct", flag true),
      ("sendTime", num 600), ("analyse_callback", .str "cdf")]⟩,
  ⟨"beijing_newyork_cdf", none,
    [("dynamic", num 1), ("dynamic_complete", flag false), ("dynamic_bw_fluct", flag true),
      ("dynamic_intv", num 1), ("sendTime", num 600), ("test_type", .str "throughputWithOwd"),
      ("analyse_callback", .str "cdf")]⟩,
  ⟨"beijing_newyork_cdf_backup", none,
    [("dynamic", num 1), ("dynamic_complete", flag false), ("dynamic_bw_fluct", flag true),
      ("sendTime", num 600), ("test_type", .str "throughputWithOwd")]⟩,
  ⟨"distance_test_with_isl", none,
    [("dynamic", num 1), ("dynamic_complete", flag false), ("dynamic_bw_fluct", flag true),
      ("sendTime", num 600), ("test_type", .str "throughputWithOwd"),
      ("analyse_callback", .str "bar")]⟩,
  ⟨"distance_test_with_isl_backup", none,
    [("dynamic", num 1), ("dynamic_complete", flag false), ("dynamic_bw_fluct", flag true),
      ("sendTime", num 600), ("test_type", .str "throughputWithOwd")]⟩,
  ⟨"distance_test_with_isl_bw_flunct", none,
    [("dynamic", num 1), ("dynamic_complete", flag false), ("dynamic_bw_fluct", flag true),
      ("sendTime", num 600), ("test_type", .str "throughputWithOwd"),
      ("dynamic_ground_link_rtt", num 20), ("dynamic_uplink_bw", num 10),
      ("analyse_callback", .str "lineChart"), ("txqueuelen", num 100),
      ("max_queue_size", num 150)]⟩,
  ⟨"coverage_test", none,
    [("dynamic", num 1), ("dynamic_complete", flag false), ("dynamic_bw_fluct", flag true),
      ("sendTime", num 300), ("test_type", .str "throughputWithOwd")]⟩,
  ⟨"ablation_test", none,
    [("dynamic", num 1), ("dynamic_complete", flag false), ("dynamic_bw_fluct", flag true),
      ("sendTime", num 600), ("test_type", .str "throughputWithOwd"),
      ("dynamic_ground_link_rtt", num 20), ("dynamic_uplink_bw", num 10),
      ("analyse_callback", .str "lineChart"), ("txqueuelen", num 100),
      ("max_queue_size", num 150)]⟩,
  ⟨"relay_only_test", none,
    [("dynamic", num 1), ("dynamic_complete", flag false), ("dynamic_bw_fluct", flag true),
      ("sendTime", num 600), ("analyse_callback", .str "cdf")]⟩,
  ⟨"relay_only_cdf_1", none,
    [("dynamic", num 1), ("dynamic_complete", flag true), ("sendTime", num 600),
      ("test_type", .str "throughputWithOwd"), ("analyse_callback", .str "cdf")]⟩,
  ⟨"beijing_shanghai_cdf", none,
    [("dynamic", num 1), ("dynamic_complete", flag true), ("sendTime", num 600),
      ("test_type", .str "throughputWithOwd"), ("analyse_callback", .str "cdf")]⟩,
  ⟨"beijing_shanghai_cdf_backup", none,
    [("dynamic", num 1), ("dynamic_complete", flag true), ("sendTime", num 600),
      ("test_type", .str "throughputWithOwd")]⟩,
  ⟨"beijing_shanghai_cdf_2", none,
    [("dynamic", num 1), ("dynamic_complete", flag true), ("sendTime", num 600),
      ("test_type", .str "throughputWithOwd"), ("analyse_callback", .str "cdf")]⟩,
  ⟨"dynamic_exp_2", none, [("dynamic", num 1), ("sendTime", num 120)]⟩,
  ⟨"dynamic_exp_4", none,
    [("dynamic", num 1), ("dynamic_complete", flag false), ("dynamic_ground_link_rtt", num 20),
      ("dynamic_uplink_bw", num 20), ("sendTime", num 120), ("dynamic_gsl_loss", num 0)]⟩,
  ⟨"rtt_fluct_test", none,
    [("dynamic", num 1), ("dynamic_complete", flag false), ("dynamic_ground_link_rtt", num 10),
      ("dynamic_uplink_bw", num 20), ("sendTime", num 120), ("dynamic_gsl_loss", num 0)]⟩,
  ⟨"dynamic_exp_3", none, [("dynamic", num 1), ("sendTime", num 120)]⟩,
  ⟨"pure", some [("bw", num 40), ("rtt", num 100)], []⟩,
  ⟨"bp_itm_test_1", some [("rtt", num 6), ("bw", num 20), ("loss", num 0)],
    [("sendTime", num 120)]⟩,
  ⟨"bp_varbw_test_1", some [("bw", num 20), ("loss", num 0)], [("sendTime", num 30)]⟩,
  ⟨"bp_varbw_test_2", some [("bw", num 20), ("loss", num 0)], [("sendTime", num 30)]⟩,
  ⟨"expr", some [("rtt", num 5), ("bw", num 50), ("loss", num (1/10))], [("sendTime", num 30)]⟩,
  ⟨"expr0", some [("loss", num 0)], [("sendTime", num 60)]⟩,
  ⟨"expr3", some [("varIntv", num 20), ("loss", num (1/10))], [("sendTime", num 360)]⟩,
  ⟨"retran_test", some [("rtt", num 20), ("bw", num 40), ("loss", num 1)],
    [("sendTime", num 300), ("test_type", .str "owdTest")]⟩,
  ⟨"retran_test_2", some [("rtt", num 20), ("bw", num 40), ("loss", num 1)],
    [("sendTime", num 300), ("test_type", .str "owdTest")]⟩,
  ⟨"big_rtt_retran_test", some [("rtt", num 50), ("bw", num 40), ("loss", num 1)],
    [("sendTime", num 300), ("test_type", .str "owdTest")]⟩,
  ⟨"big_rtt_retran_test_2", some [("rtt", num 50), ("bw", num 40), ("loss", num 1)],
    [("sendTime", num 300), ("test_type", .str "owdTest")]⟩,
  ⟨"final_varbw_test_1", some [("bw", num 20), ("loss", num 0), ("rtt", num 20)],
    [("sendTime", num 120)]⟩,
  ⟨"owd_thrp_balance_varbw_test", some [("bw", num 20), ("loss", num 0), ("rtt", num 20)],
    [("sendTime", num 120), ("test_type", .str "owdThroughputBalance")]⟩,
  ⟨"owd_thrp_balance_itm_test", some [("bw", num 20), ("loss", num 0), ("rtt", num 20)],
    [("sendTime", num 120), ("test_type", .str "owdThroughputBalance")]⟩,
  ⟨"final_itm_test_1", some [("bw", num 20), ("loss", num 0), ("rtt", num 20)],
    [("sendTime", num 120)]⟩,
  ⟨"loss_test_1", some [("bw", num 20), ("loss", num 0), ("rtt", num 20)],
    [("sendTime", num 120)]⟩,
  ⟨"flow_test", some [("rtt", num 20), ("bw", num 20)],
    [("sendTime", num 60), ("test_type", .str "trafficTest"), ("data_size", num 20)]⟩,
  ⟨"flow_test_2", some [("rtt", num 20), ("bw", num 20)],
    [("sendTime", num 120), ("test_type", .str "trafficTest"), ("data_size", num 100)]⟩,
  ⟨"throughput_with_traffic", some [("rtt", num 20), ("bw", num 20)],
    [("sendTime", num 60), ("test_type", .str "throughputWithTraffic")]⟩,
  ⟨"motivation_hop_test", some [("bw", num 20), ("loss", num 1), ("rtt", num 10)],
    [("sendTime", num 120)]⟩,
  ⟨"motivation_hop_test_2", some [("bw", num 20), ("loss", num (1/2)), ("rtt", num 10)],
    [("sendTime", num 120)]⟩,
  ⟨"motivation_split_test", some [("rtt", num 10), ("bw", num 20), ("loss", num 1)],
    [("sendTime", num 60), ("test_type", .str "owdThroughputBalance"),
      ("analyse_callback", .str "scatter"), ("sendq_length", num 0)]⟩,
  ⟨"motivation_split_test_2", some [("rtt", num 10), ("bw", num 20), ("loss", num (1/2))],
    [("sendTime", num 60), ("test_type", .str "owdThroughputBalance"),
      ("analyse_callback", .str "scatter"), ("sendq_length", num 0)]⟩,
  ⟨"delay_feedback_test", some [("bw", num 20), ("loss", num 0), ("rtt", num 20)],
    [("sendTime", num 120), ("test_type", .str "throughputWithOwd"),
      ("analyse_callback", .str "lineChart_with_loss"), ("txqueuelen", num 100),
      ("max_queue_size", num 100)]⟩,
  ⟨"delay_feedback_test_2", some [("bw", num 20), ("loss", num 0), ("rtt", num 20)],
    [("sendTime", num 120), ("test_type", .str "throughputWithOwd"),
      ("analyse_callback", .str "lineChart_with_loss"), ("txqueuelen", num 100),
      ("max_queue_size", num 150)]⟩,
  ⟨"delay_feedback_distance", some [("bw", num 20), ("loss", num 0), ("rtt", num 10)],
    [("sendTime", num 120), ("test_type", .str "throughputWithOwd"),
      ("analyse_callback", .str "lineChart_with_loss"), ("txqueuelen", num 100),
      ("max_queue_size", num 150)]⟩,
  ⟨"delay_feedback_distance_backup", some [("bw", num 20), ("loss", num 0), ("rtt", num 10)],
    [("sendTime", num 120), ("test_type", .str "throughputWithOwd"),
      ("analyse_callback", .str "lineChart_with_loss"), ("txqueuelen", num 100),
      ("max_queue_size", num 150)]⟩,
  ⟨"owdThrpBalanceNew", some [("rtt", num 20), ("bw", num 20), ("loss", num 0)],
    [("sendTime", num 120), ("test_type", .str "owdThroughputBalance"),
      ("analyse_callback", .str "scatter"), ("sendq_length", num 0), ("txqueuelen", num 100),
      ("max_queue_size", num 150)]⟩,
  ⟨"cpuTest", some [("bw", num 100), ("loss", num 2), ("rtt", num 20)],
    [("sendTime", num 180), ("test_type", .str "cpuTest")]⟩,
  ⟨"delay_ack_test", none,
    [("dynamic", num 1), ("sendTime", num 30), ("test_type", .str "throughputWithOwd")]⟩]

/-- `DefaultLP` and `DefaultAP` between two calls. -/
structure Defaults where
  lp : Keywords
  ap : Keywords

def fresh : Defaults := ⟨DefaultLP, DefaultAP⟩

/-- What a definition has besides: its topology, unless evaluating it raises; the parameters
of single links; the arguments of its `add` calls. -/
structure Rest where
  topology : String → Option (Value Datum)
  dic : String → List (String × String × Value Datum)
  adds : String → List (Args Datum)
  named : ∀ name, ∀ item ∈ dic name, item.1 ≠ "defaultLP"

/-- `set(**kwargs)`. -/
def setKw (dict kwargs : Keywords) : Keywords := merge dict (Value.copyDict kwargs)

def addTo (render : Value Datum → String) (set : TestParamSet Datum) (args : Args Datum) :
    Option (TestParamSet Datum) :=
  match add args.sizes.prod render set args with
  | some (.returned testParams) => some { set with testParams := testParams }
  | _ => none

def addAll (render : Value Datum → String) :
    TestParamSet Datum → List (Args Datum) → Option (TestParamSet Datum)
  | set, [] => some set
  | set, args :: adds => (addTo render set args).bind (addAll render · adds)

inductive Loaded where
  | raised
  | returned (tpSet : Option (TestParamSet Datum))

/-- The link parameters of a definition, from `DefaultLP` as it is after its own `set`. -/
def linksOf (rest : Rest) (defn : Definition) (lp : Keywords) : Option (Value Datum) :=
  match defn.links with
  | none => some (.plain .none)
  | some _ => Value.linksParam (.param lp) (rest.dic defn.tpsetName)

def getTestParamSet (rest : Rest) (render : Value Datum → String) (d : Defaults)
    (tpsetName : String) : Defaults × Loaded :=
  match definitions.find? (·.tpsetName = tpsetName), rest.topology tpsetName with
  | none, _ => (d, .returned none)
  | some _, none => (d, .raised)
  | some defn, some topo =>
    let lp := setKw d.lp (defn.links.getD [])
    match linksOf rest defn lp with
    | none => (⟨lp, d.ap⟩, .raised)
    | some links =>
      let ap := setKw d.ap defn.app
      match addAll render (TestParamSet.new topo links (.param ap)) (rest.adds tpsetName) with
      | none => (⟨lp, ap⟩, .raised)
      | some tpSet => (⟨lp, ap⟩, .returned (some tpSet))

/-- One call after the other in one process. -/
def calls (rest : Rest) (render : Value Datum → String) :
    Defaults → List String → List (Defaults × Loaded)
  | _, [] => []
  | d, name :: names =>
    let call := getTestParamSet rest render d name
    call :: calls rest render call.1 names

section Keywords

variable {base d d' kwargs : Keywords}

/-- The attributes of `base`, with plain data. -/
def Like (base d : Keywords) : Prop :=
  keys d = keys base ∧ ∀ item ∈ d, item.2.isLeaf = true

def Fits (base kwargs : Keywords) : Prop :=
  (keys kwargs).Nodup ∧ ∀ kw ∈ kwargs, (kw.1 ≠ "nokey" ∧ kw.2.isLeaf = true) ∧ kw.1 ∈ keys base

lemma setKw_eq (fits : Fits base kwargs) : setKw d kwargs = merge d kwargs := by
  rw [setKw, Value.copyDict_leaves fun kw h => (fits.2 kw h).1]

lemma get?_setKw (fits : Fits base kwargs) (d : Keywords) (field : String) :
    get? (setKw d kwargs) field = (get? kwargs field).or (get? d field) := by
  rw [setKw_eq fits, get?_merge d fits.1]

lemma keys_setKw (like : Like base d) (fits : Fits base kwargs) :
    keys (setKw d kwargs) = keys base := by
  rw [setKw_eq fits, keys_merge, like.1]
  intro k hk
  obtain ⟨kw, listed, rfl⟩ := List.mem_map.mp hk
  exact like.1 ▸ (fits.2 kw listed).2

lemma setKw_like (unique : (keys base).Nodup) (like : Like base d) (fits : Fits base kwargs) :
    Like base (setKw d kwargs) := by
  have same := keys_setKw like fits
  refine ⟨same, fun item h => ?_⟩
  have found := get?_of_mem (same ▸ unique) h
  rw [get?_setKw fits, Option.or_eq_some_iff] at found
  obtain set | ⟨-, old⟩ := found
  · exact (fits.2 _ (mem_of_get? set)).1.2
  · exact like.2 _ (mem_of_get? old)

/-- After the same keywords two dictionaries are the same if they agreed on the rest. -/
lemma setKw_eq_iff (unique : (keys base).Nodup) (like : Like base d) (like' : Like base d')
    (fits : Fits base kwargs) : setKw d kwargs = setKw d' kwargs ↔
      ∀ field ∉ keys kwargs, get? d field = get? d' field := by
  constructor
  · intro same field unset
    have values := congrArg (get? · field) same
    simpa [get?_setKw fits, get?_eq_none.mpr unset] using values
  · intro agree
    have same := keys_setKw like fits
    refine eq_of_get? (same.trans (keys_setKw like' fits).symm) (same ▸ unique) fun field _ => ?_
    rw [get?_setKw fits, get?_setKw fits]
    by_cases set : field ∈ keys kwargs
    · obtain ⟨value, given⟩ := Option.isSome_iff_exists.mp (get?_isSome.mpr set)
      rw [given]
      rfl
    · rw [agree field set]

lemma setKw_eq_self_iff (unique : (keys base).Nodup) (like : Like base d)
    (fits : Fits base kwargs) :
    setKw d kwargs = d ↔ ∀ kw ∈ kwargs, get? d kw.1 = some kw.2 := by
  constructor
  · intro same kw listed
    have value := get?_setKw fits d kw.1
    rw [same, get?_of_mem fits.1 listed] at value
    exact value
  · intro held
    refine eq_of_get? ((keys_setKw like fits).trans like.1.symm)
      (keys_setKw like fits ▸ unique) fun field _ => ?_
    rw [get?_setKw fits]
    cases given : get? kwargs field with
    | none => rfl
    | some value => exact (held _ (mem_of_get? given)).symm

lemma copyDict_like (noDefault : "nokey" ∉ keys base) (like : Like base d) :
    Value.copyDict d = d := by
  refine Value.copyDict_leaves fun item h => ⟨?_, like.2 item h⟩
  intro same
  exact noDefault (like.1 ▸ List.mem_map.mpr ⟨item, h, same⟩)

lemma shape_like (like : Like base d) (like' : Like base d') :
    (Value.param d).shape = (Value.param d').shape := by
  rw [Value.shape, Value.shape, Value.shapeDict_leaves like.2, Value.shapeDict_leaves like'.2,
    like.1, like'.1]

end Keywords

lemma keys_DefaultLP : (keys DefaultLP).Nodup ∧ "nokey" ∉ keys DefaultLP := by decide +kernel

lemma keys_DefaultAP : (keys DefaultAP).Nodup ∧ "nokey" ∉ keys DefaultAP := by decide +kernel

/-- The definitions set attributes that the defaults have, to plain data. -/
lemma definitions_fit : ∀ defn ∈ definitions,
    Fits DefaultLP (defn.links.getD []) ∧ Fits DefaultAP defn.app := by
  unfold Fits
  decide +kernel

lemma find_definition {tpsetName : String} {defn : Definition}
    (found : definitions.find? (·.tpsetName = tpsetName) = some defn) :
    defn ∈ definitions ∧ defn.tpsetName = tpsetName :=
  ⟨List.mem_of_find?_eq_some found, by simpa using List.find?_some found⟩

/-- The definition of a name, where its topology can be evaluated. -/
def started (rest : Rest) (tpsetName : String) : Option (Definition × Value Datum) :=
  match definitions.find? (·.tpsetName = tpsetName), rest.topology tpsetName with
  | some defn, some topo => some (defn, topo)
  | _, _ => none

/-- The keywords that a call sets on `DefaultLP`. -/
def linkSets (rest : Rest) (tpsetName : String) : Keywords :=
  ((started rest tpsetName).bind (·.1.links)).getD []

/-- The keywords that a call sets on `DefaultAP`. -/
def appSets (rest : Rest) (tpsetName : String) : Keywords :=
  ((started rest tpsetName).map (·.1.app)).getD []

lemma started_eq_some {rest : Rest} {tpsetName : String} {defn : Definition}
    {topo : Value Datum} : started rest tpsetName = some (defn, topo) ↔
      definitions.find? (·.tpsetName = tpsetName) = some defn ∧
        rest.topology tpsetName = some topo := by
  rw [started]
  split <;> simp_all

lemma sets_fit (rest : Rest) (tpsetName : String) :
    Fits DefaultLP (linkSets rest tpsetName) ∧ Fits DefaultAP (appSets rest tpsetName) := by
  rw [linkSets, appSets]
  cases begun : started rest tpsetName with
  | none => exact ⟨⟨List.nodup_nil, by simp⟩, ⟨List.nodup_nil, by simp⟩⟩
  | some pair =>
    obtain ⟨found, -⟩ := started_eq_some.mp begun
    exact definitions_fit _ (find_definition found).1

lemma linksOf_isSome (rest : Rest) (defn : Definition) (lp : Keywords) :
    ∃ links, linksOf rest defn lp = some links := by
  rw [linksOf]
  cases defn.links with
  | none => exact ⟨_, rfl⟩
  | some kwargs =>
    obtain ⟨obj, done, -⟩ := Value.linksParam_spec lp (rest.named defn.tpsetName)
    exact ⟨obj, done⟩

lemma call_started {rest : Rest} {tpsetName : String} {defn : Definition} {topo : Value Datum}
    (begun : started rest tpsetName = some (defn, topo)) (render : Value Datum → String)
    (d : Defaults) : ∃ links,
      linksOf rest defn (setKw d.lp (defn.links.getD [])) = some links ∧
      getTestParamSet rest render d tpsetName =
        (⟨setKw d.lp (defn.links.getD []), setKw d.ap defn.app⟩,
          match addAll render (TestParamSet.new topo links (.param (setKw d.ap defn.app)))
            (rest.adds tpsetName) with
          | none => .raised
          | some tpSet => .returned (some tpSet)) := by
  obtain ⟨found, evaluated⟩ := started_eq_some.mp begun
  obtain ⟨links, made⟩ := linksOf_isSome rest defn (setKw d.lp (defn.links.getD []))
  refine ⟨links, made, ?_⟩
  simp only [getTestParamSet, found, evaluated, made]
  split <;> rfl

lemma call_not_started {rest : Rest} {tpsetName : String}
    (begun : started rest tpsetName = none) (render : Value Datum → String) :
    ∃ loaded, ∀ d, getTestParamSet rest render d tpsetName = (d, loaded) := by
  cases found : definitions.find? (·.tpsetName = tpsetName) with
  | none => exact ⟨.returned none, fun d => by simp only [getTestParamSet, found]⟩
  | some defn =>
    cases evaluated : rest.topology tpsetName with
    | none => exact ⟨.raised, fun d => by simp only [getTestParamSet, found, evaluated]⟩
    | some topo => simp [started, found, evaluated] at begun

lemma call_defaults (rest : Rest) (render : Value Datum → String) (d : Defaults)
    (tpsetName : String) : (getTestParamSet rest render d tpsetName).1 =
      ⟨setKw d.lp (linkSets rest tpsetName), setKw d.ap (appSets rest tpsetName)⟩ := by
  rw [linkSets, appSets]
  cases begun : started rest tpsetName with
  | none =>
    obtain ⟨loaded, same⟩ := call_not_started begun render
    rw [same]
    rfl
  | some pair =>
    obtain ⟨links, -, call⟩ := call_started begun render d
    rw [call]
    rfl

/-- The constructor refuses no choice of the `add` calls. -/
def Accepts (render : Value Datum → String) (template : TestParam Datum)
    (adds : List (Args Datum)) : Prop :=
  ∀ args ∈ adds, ∀ pos, List.Forall₂ (· < ·) pos args.sizes →
    (build template render args pos).isSome

lemma addTo_spec (render : Value Datum → String) (set : TestParamSet Datum) (args : Args Datum) :
    (∀ pos, List.Forall₂ (· < ·) pos args.sizes →
        (build set.tpTemplate render args pos).isSome) ∧
      (∃ tpSet, addTo render set args = some tpSet ∧ tpSet.tpTemplate = set.tpTemplate) ∨
    (¬ ∀ pos, List.Forall₂ (· < ·) pos args.sizes →
        (build set.tpTemplate render args pos).isSome) ∧ addTo render set args = none := by
  simp only [addTo, add_visits, ← Odometer.mem_cells]
  obtain ⟨accepted, testParams, done⟩ | ⟨refused, testParams, done⟩ :=
    visit_returns (build set.tpTemplate render args) (Odometer.cells args.sizes) set.testParams
  · exact .inl ⟨accepted, { set with testParams := testParams }, by simp [done], rfl⟩
  · exact .inr ⟨refused, by simp [done]⟩

lemma addAll_spec (render : Value Datum → String) (set : TestParamSet Datum)
    (adds : List (Args Datum)) :
    Accepts render set.tpTemplate adds ∧
      (∃ tpSet, addAll render set adds = some tpSet ∧ tpSet.tpTemplate = set.tpTemplate) ∨
    ¬ Accepts render set.tpTemplate adds ∧ addAll render set adds = none := by
  induction adds generalizing set with
  | nil => exact .inl ⟨by simp [Accepts], set, rfl, rfl⟩
  | cons args adds ih =>
    obtain ⟨first, next, done, same⟩ | ⟨refused, done⟩ := addTo_spec render set args
    · obtain ⟨rest, tpSet, done', same'⟩ | ⟨refused, done'⟩ := ih next
      · refine .inl ⟨?_, tpSet, by simp [addAll, done, done'], same'.trans same⟩
        rw [same] at rest
        exact List.forall_mem_cons.mpr ⟨first, rest⟩
      · refine .inr ⟨?_, by simp [addAll, done, done']⟩
        rw [same] at refused
        exact fun all => refused (List.forall_mem_cons.mp all).2
    · exact .inr ⟨fun all => refused (List.forall_mem_cons.mp all).1, by simp [addAll, done]⟩

lemma accepts_of_shape {template template' : TestParam Datum}
    (same : template.shape = template'.shape) (render : Value Datum → String)
    (adds : List (Args Datum)) :
    Accepts render template adds ↔ Accepts render template' adds := by
  have each (args : Args Datum) (pos : List Nat) :
      (build template render args pos).isSome = (build template' render args pos).isSome := by
    simp only [build, bind]
    cases permAt args pos with
    | none => rfl
    | some perm =>
      cases nameAt render args pos with
      | none => rfl
      | some name => exact TestParam.isSome_construct_of_shape same name perm
  simp only [Accepts, each]

lemma shape_linksOf (rest : Rest) (defn : Definition) {lp lp' : Keywords}
    (like : Like DefaultLP lp) (like' : Like DefaultLP lp') :
    (linksOf rest defn lp).map Value.shape = (linksOf rest defn lp').map Value.shape := by
  rw [linksOf, linksOf]
  cases defn.links with
  | none => rfl
  | some kwargs => simp only [Value.shape_linksParam, shape_like like like']

/-- Equal link parameters have an equal `defaultLP`. -/
lemma lp_of_links_copy {rest : Rest} {defn : Definition} (given : defn.links.isSome)
    {lp lp' : Keywords} (like : Like DefaultLP lp) (like' : Like DefaultLP lp')
    {links links' : Value Datum} (made : linksOf rest defn lp = some links)
    (made' : linksOf rest defn lp' = some links') (same : links.copy = links'.copy) : lp = lp' := by
  have read {lp : Keywords} (like : Like DefaultLP lp) {links : Value Datum}
      (made : linksOf rest defn lp = some links) {field : String} (named : field ≠ "nokey") :
      links.copy.at? ["defaultLP", field] = get? lp field := by
    obtain ⟨kwargs, given⟩ := Option.isSome_iff_exists.mp given
    obtain ⟨obj, done, fields⟩ := Value.linksParam_spec lp (rest.named defn.tpsetName)
    obtain rfl : obj = links := by
      simpa [linksOf, given, done] using made
    have plain := copyDict_like keys_DefaultLP.2 like
    rw [Value.at?_copy obj (by simp [named.symm]), fields, plain, ← Value.get?_copyDict lp named,
      plain]
  refine eq_of_get? (like.1.trans like'.1.symm) (like.1 ▸ keys_DefaultLP.1) fun field listed => ?_
  have named : field ≠ "nokey" := by
    rintro rfl
    exact keys_DefaultLP.2 (like.1 ▸ listed)
  rw [← read like made named, same, read like' made' named]

/-- The parameters that a definition does not set itself are the same. -/
def Agree (defn : Definition) (d d' : Defaults) : Prop :=
  (∀ field ∉ keys defn.app, get? d.ap field = get? d'.ap field) ∧
    (defn.links.isSome → ∀ field ∉ keys (defn.links.getD []), get? d.lp field = get? d'.lp field)

def Sound (d : Defaults) : Prop := Like DefaultLP d.lp ∧ Like DefaultAP d.ap

/-- The template that a call makes. -/
def templateOf (rest : Rest) (defn : Definition) (topo : Value Datum) (d : Defaults) :
    TestParam Datum :=
  TestParam.template topo
    ((linksOf rest defn (setKw d.lp (defn.links.getD []))).getD (.plain .none))
    (.param (setKw d.ap defn.app))

lemma agree_iff {defn : Definition} (known : defn ∈ definitions) {d d' : Defaults}
    (sound : Sound d) (sound' : Sound d') :
    Agree defn d d' ↔ setKw d.ap defn.app = setKw d'.ap defn.app ∧
      (defn.links.isSome → setKw d.lp (defn.links.getD []) = setKw d'.lp (defn.links.getD [])) := by
  obtain ⟨fitLP, fitAP⟩ := definitions_fit _ known
  rw [setKw_eq_iff keys_DefaultAP.1 sound.2 sound'.2 fitAP,
    setKw_eq_iff keys_DefaultLP.1 sound.1 sound'.1 fitLP]
  rfl

section Templates

variable {rest : Rest} {defn : Definition} {lp lp' ap ap' : Keywords} {links links' : Value Datum}
  (likeLP : Like DefaultLP lp) (likeLP' : Like DefaultLP lp') (likeAP : Like DefaultAP ap)
  (likeAP' : Like DefaultAP ap') (made : linksOf rest defn lp = some links)
  (made' : linksOf rest defn lp' = some links')

include likeLP likeLP' likeAP likeAP' made made'

lemma template_eq_iff (topo : Value Datum) :
    TestParam.template topo links (.param ap) = TestParam.template topo links' (.param ap') ↔
      ap = ap' ∧ (defn.links.isSome → lp = lp') := by
  constructor
  · intro same
    refine ⟨?_, fun given => ?_⟩
    · have copies := congrFun same .appParam
      simpa [TestParam.template, Value.copy, copyDict_like keys_DefaultAP.2 likeAP,
        copyDict_like keys_DefaultAP.2 likeAP'] using copies
    · exact lp_of_links_copy given likeLP likeLP' made made' (congrFun same .linksParam)
  · rintro ⟨rfl, lps⟩
    have sameLinks : links = links' := by
      cases given : defn.links with
      | none =>
        rw [linksOf, given] at made made'
        exact (Option.some.inj made).symm.trans (Option.some.inj made')
      | some kwargs =>
        rw [lps (by simp [given]), made'] at made
        exact (Option.some.inj made).symm
    rw [sameLinks]

/-- The refusals of the constructor do not depend on the values of the defaults. -/
lemma shape_template (topo : Value Datum) :
    (TestParam.template topo links (.param ap)).shape =
      (TestParam.template topo links' (.param ap')).shape := by
  have shapeLinks := shape_linksOf rest defn likeLP likeLP'
  rw [made, made'] at shapeLinks
  funext basic
  cases basic with
  | name => rfl
  | topoParam => rfl
  | linksParam =>
    have alike := congrArg Value.copy (Option.some.inj shapeLinks)
    simpa [TestParam.shape, TestParam.template, Value.shape_copy] using alike
  | appParam =>
    have alike := congrArg Value.copy (shape_like likeAP likeAP')
    simpa only [TestParam.shape, TestParam.template, Value.shape_copy] using alike

end Templates

lemma loaded_eq_iff {rest : Rest} {tpsetName : String} {defn : Definition} {topo : Value Datum}
    (begun : started rest tpsetName = some (defn, topo)) (render : Value Datum → String)
    {d d' : Defaults} (sound : Sound d) (sound' : Sound d') :
    (getTestParamSet rest render d tpsetName).2 = (getTestParamSet rest render d' tpsetName).2 ↔
      (Accepts render (templateOf rest defn topo d') (rest.adds tpsetName) → Agree defn d d') := by
  have known := (find_definition (started_eq_some.mp begun).1).1
  obtain ⟨fitLP, fitAP⟩ := definitions_fit _ known
  have likeLP := setKw_like keys_DefaultLP.1 sound.1 fitLP
  have likeLP' := setKw_like keys_DefaultLP.1 sound'.1 fitLP
  have likeAP := setKw_like keys_DefaultAP.1 sound.2 fitAP
  have likeAP' := setKw_like keys_DefaultAP.1 sound'.2 fitAP
  obtain ⟨links, made, call⟩ := call_started begun render d
  obtain ⟨links', made', call'⟩ := call_started begun render d'
  have shapes := shape_template likeLP likeLP' likeAP likeAP' made made' topo
  have template' : templateOf rest defn topo d' =
      TestParam.template topo links' (.param (setKw d'.ap defn.app)) := by
    rw [templateOf, made', Option.getD_some]
  rw [call, call', template', agree_iff known sound sound',
    ← template_eq_iff likeLP likeLP' likeAP likeAP' made made' topo]
  obtain ⟨accepts, tpSet, done, same⟩ | ⟨refuses, done⟩ := addAll_spec render
      (TestParamSet.new topo links (.param (setKw d.ap defn.app))) (rest.adds tpsetName)
  · have accepts' := (accepts_of_shape shapes render _).mp accepts
    obtain ⟨-, tpSet', done', same'⟩ | ⟨refuses, -⟩ := addAll_spec render
      (TestParamSet.new topo links' (.param (setKw d'.ap defn.app))) (rest.adds tpsetName)
    · simp only [done, done', accepts', true_implies]
      constructor
      · intro equal
        obtain rfl : tpSet = tpSet' := by simpa using equal
        exact same.symm.trans same'
      · intro templates
        rw [TestParamSet.new_eq templates, done'] at done
        rw [Option.some.inj done]
    · exact absurd accepts' refuses
  · have refuses' := fun accepts => refuses ((accepts_of_shape shapes render _).mpr accepts)
    obtain ⟨accepts, -⟩ | ⟨-, done'⟩ := addAll_spec render
      (TestParamSet.new topo links' (.param (setKw d'.ap defn.app))) (rest.adds tpsetName)
    · exact absurd accepts refuses'
    · simp only [done, done', true_iff]
      exact fun accepts => absurd accepts refuses'

lemma sound_fresh : Sound fresh := by
  unfold Sound Like fresh
  decide +kernel

lemma sound_call {d : Defaults} (sound : Sound d) (rest : Rest) (render : Value Datum → String)
    (tpsetName : String) : Sound (getTestParamSet rest render d tpsetName).1 := by
  rw [call_defaults]
  obtain ⟨fitLP, fitAP⟩ := sets_fit rest tpsetName
  exact ⟨setKw_like keys_DefaultLP.1 sound.1 fitLP, setKw_like keys_DefaultAP.1 sound.2 fitAP⟩

/-- The value that the last of the calls gave a field, if one did. -/
def lastSet (sets : String → Keywords) : List String → String → Option (Value Datum)
  | [], _ => none
  | name :: later, field => (lastSet sets later field).or (get? (sets name) field)

def after (rest : Rest) (render : Value Datum → String) (d : Defaults) (earlier : List String) :
    Defaults :=
  earlier.foldl (fun d name => (getTestParamSet rest render d name).1) d

lemma after_spec (rest : Rest) (render : Value Datum → String) {d : Defaults} (sound : Sound d)
    (earlier : List String) : Sound (after rest render d earlier) ∧ ∀ field,
      get? (after rest render d earlier).lp field =
          (lastSet (linkSets rest) earlier field).or (get? d.lp field) ∧
        get? (after rest render d earlier).ap field =
          (lastSet (appSets rest) earlier field).or (get? d.ap field) := by
  induction earlier generalizing d with
  | nil => exact ⟨sound, fun field => ⟨rfl, rfl⟩⟩
  | cons name later ih =>
    obtain ⟨sound', fields⟩ := ih (sound_call sound rest render name)
    refine ⟨sound', fun field => ?_⟩
    obtain ⟨lp, ap⟩ := fields field
    obtain ⟨fitLP, fitAP⟩ := sets_fit rest name
    simp only [call_defaults, get?_setKw fitLP, get?_setKw fitAP] at lp ap
    simpa [after, lastSet, Option.or_assoc, call_defaults] using And.intro lp ap

/-- Every call returns what it returns after none, seen call by call. -/
lemma calls_eq_iff (rest : Rest) (render : Value Datum → String) (d : Defaults)
    (first : String → Loaded) (names : List String) :
    (calls rest render d names).map Prod.snd = names.map first ↔
      ∀ earlier name later, names = earlier ++ name :: later →
        (getTestParamSet rest render (after rest render d earlier) name).2 = first name := by
  induction names generalizing d with
  | nil => simp [calls]
  | cons name names ih =>
    simp only [calls, List.map_cons, List.cons.injEq, ih]
    constructor
    · rintro ⟨here, later⟩ earlier name' rest' split
      cases earlier with
      | nil =>
        obtain ⟨rfl, rfl⟩ := List.cons.inj split
        exact here
      | cons name'' earlier =>
        obtain ⟨rfl, tails⟩ := List.cons.inj split
        exact later earlier name' rest' tails
    · intro each
      refine ⟨each [] name names rfl, fun earlier name' rest' split => ?_⟩
      exact each (name :: earlier) name' rest' (congrArg (name :: ·) split)

/-- A first call with the name returns a set, made by `defn`. -/
def Loads (rest : Rest) (render : Value Datum → String) (tpsetName : String) (defn : Definition) :
    Prop :=
  ∃ topo, started rest tpsetName = some (defn, topo) ∧
    Accepts render (templateOf rest defn topo fresh) (rest.adds tpsetName)

/-- Of every field that `defn` does not set itself: the last of the earlier calls that set it,
if one did, set it to its default. -/
def Undisturbed (rest : Rest) (earlier : List String) (defn : Definition) : Prop :=
  (∀ field value, field ∉ keys defn.app → lastSet (appSets rest) earlier field = some value →
    get? DefaultAP field = some value) ∧
  (defn.links.isSome → ∀ field value, field ∉ keys (defn.links.getD []) →
    lastSet (linkSets rest) earlier field = some value → get? DefaultLP field = some value)

lemma undisturbed_iff (rest : Rest) (render : Value Datum → String) (earlier : List String)
    (defn : Definition) :
    Agree defn (after rest render fresh earlier) fresh ↔ Undisturbed rest earlier defn := by
  obtain ⟨-, fields⟩ := after_spec rest render sound_fresh earlier
  have last {own : Option (Value Datum)} {base : Option (Value Datum)} :
      own.or base = base ↔ ∀ value, own = some value → base = some value := by
    cases own with
    | none => simp
    | some value => simp [eq_comm]
  have lift {P Q : String → Prop} {R : String → Value Datum → Prop}
      (h : ∀ field, Q field ↔ ∀ value, R field value) :
      (∀ field, P field → Q field) ↔ ∀ field value, P field → R field value := by
    simp only [h]
    constructor
    · exact fun all field value hp => all field hp value
    · exact fun all field hp value => all field value hp
  refine and_congr (lift fun field => ?_) (imp_congr_right fun _ => lift fun field => ?_)
  · rw [(fields field).2]
    exact last
  · rw [(fields field).1]
    exact last

lemma calls_kept_iff (rest : Rest) (render : Value Datum → String) (names : List String) :
    (∀ call ∈ calls rest render fresh names, call.1 = fresh) ↔
      ∀ name ∈ names, (getTestParamSet rest render fresh name).1 = fresh := by
  induction names with
  | nil => simp [calls]
  | cons name names ih =>
    simp only [calls, List.forall_mem_cons]
    refine and_congr_right fun first => ?_
    rw [first]
    exact ih

/-- Each call returns what a first call with its name returns if and only if, at each call
whose definition loads, the earlier calls left the fields that it does not set with their
defaults. The defaults stay as they are if and only if no call sets one to another value. -/
theorem calls_isolated_iff (rest : Rest) (render : Value Datum → String) (names : List String) :
    ((calls rest render fresh names).map Prod.snd =
        names.map (fun name => (getTestParamSet rest render fresh name).2) ↔
      ∀ earlier name later defn, names = earlier ++ name :: later →
        Loads rest render name defn → Undisturbed rest earlier defn) ∧
    ((∀ call ∈ calls rest render fresh names, call.1 = fresh) ↔
      ∀ name ∈ names, (∀ kw ∈ linkSets rest name, get? DefaultLP kw.1 = some kw.2) ∧
        ∀ kw ∈ appSets rest name, get? DefaultAP kw.1 = some kw.2) := by
  constructor
  · rw [calls_eq_iff]
    refine forall_congr' fun earlier => forall_congr' fun name => forall_congr' fun later => ?_
    rw [forall_comm]
    refine imp_congr_right fun _ => ?_
    obtain ⟨sound, -⟩ := after_spec rest render sound_fresh earlier
    cases begun : started rest name with
    | none =>
      obtain ⟨loaded, same⟩ := call_not_started begun render
      simp [same, Loads, begun]
    | some pair =>
      obtain ⟨defn, topo⟩ := pair
      rw [loaded_eq_iff begun render sound sound_fresh, undisturbed_iff]
      constructor
      · rintro h defn' ⟨topo', begun', accepts⟩
        obtain ⟨rfl, rfl⟩ := Prod.mk.inj (Option.some.inj (begun.symm.trans begun'))
        exact h accepts
      · intro h accepts
        exact h defn ⟨topo, begun, accepts⟩
  · rw [calls_kept_iff]
    refine forall₂_congr fun name _ => ?_
    obtain ⟨fitLP, fitAP⟩ := sets_fit rest name
    rw [call_defaults, fresh, Defaults.mk.injEq]
    exact and_congr (setKw_eq_self_iff keys_DefaultLP.1 sound_fresh.1 fitLP)
      (setKw_eq_self_iff keys_DefaultAP.1 sound_fresh.2 fitAP)

def words (nodes : List String) : Datum := .list (nodes.map .word)

def genLinearTopo (n : Nat) (hasDummyNode : Bool) : Value Datum :=
  let mids := (List.range n).map fun i => "m" ++ toString (i + 1)
  let nodes := ["h1", "gs1"] ++ mids ++
    (if hasDummyNode then ["gs2", "dummy", "h2"] else ["gs2", "h2"])
  let links := (nodes.zip nodes.tail).map fun link => words [link.1, link.2]
  .param [("name", .str (toString n ++ "_mid")), ("numMidNode", num n),
    ("nodes", .plain (words nodes)), ("links", .plain (.list links)),
    ("pathes", .plain (.list [words nodes]))]

/-- What `static_test` and `large_hop_num` have besides their keywords. -/
def linearRest : Rest where
  topology name :=
    if name = "static_test" then some (genLinearTopo 1 false)
    else if name = "large_hop_num" then some (genLinearTopo 12 false)
    else none
  dic name :=
    if name = "static_test" then [("h1_gs1", "loss", num 0), ("gs2_h2", "loss", num 0)]
    else if name = "large_hop_num" then [("m12_gs2", "bw", num 5)]
    else []
  adds name :=
    if name = "static_test" then
      [{ segDict :=
          ⟨[(⟨"defaultLP", ["loss"]⟩, .list [num 0, num (1/10), num (1/2), num 1]),
            (⟨"e2eCC", []⟩, .list [.str "cubic", .str "bbr"])], by decide⟩
         segGroupDicts :=
          [⟨[("notunnel", ⟨[(⟨"midCC", []⟩, .str "nopep")], by decide⟩),
            ("tunnel", ⟨[(⟨"midCC", []⟩, .str "pep")], by decide⟩)], by decide⟩]
         someValue := by simp [Seg.choices]
         someEntry := by simp }]
    else if name = "large_hop_num" then
      [{ segDict := ⟨[], by decide⟩
         segGroupDicts :=
          [⟨[("in_pep", ⟨[(⟨"midCC", []⟩, .str "pep"), (⟨"protocol", []⟩, .str "INTCP")],
            by decide⟩)], by decide⟩]
         someValue := by simp
         someEntry := by simp }]
    else []
  named name item h := by
    split at h
    · simp only [List.mem_cons, List.not_mem_nil, or_false] at h
      obtain rfl | rfl := h <;> decide
    · split at h
      · obtain rfl := List.mem_singleton.mp h
        decide
      · cases h

/-- `str`, of strings and of numbers with at most one decimal. -/
def pyStr : Value Datum → String
  | .str s => s
  | .plain (.num q) =>
    if q.den = 1 then toString q.num
    else toString (q.num / q.den) ++ "." ++ toString (q.num * 10 / q.den % 10)
  | _ => "None"

/-- The template's callback for the analysis. -/
def Loaded.callback? : Loaded → Option String
  | .returned (some tpSet) => match tpSet.tpTemplate.at? ⟨.appParam, ["analyse_callback"]⟩ with
    | some (.str s) => some s
    | _ => none
  | _ => none

/-- After `static_test`, `large_hop_num` analyses with the callback of `static_test`. -/
theorem callback_leaks :
    (calls linearRest pyStr fresh ["static_test", "large_hop_num"]).map Prod.snd ≠
      ["static_test", "large_hop_num"].map
        fun name => (getTestParamSet linearRest pyStr fresh name).2 := by
  intro same
  have callbacks := congrArg (List.map Loaded.callback?) same
  have now : ((calls linearRest pyStr fresh ["static_test", "large_hop_num"]).map
      Prod.snd).map Loaded.callback? =
        [some "lineChart_with_loss", some "lineChart_with_loss"] := by decide +kernel
  have first : (["static_test", "large_hop_num"].map
      fun name => (getTestParamSet linearRest pyStr fresh name).2).map Loaded.callback? =
        [some "lineChart_with_loss", some "lineChart"] := by decide +kernel
  rw [now, first] at callbacks
  revert callbacks
  decide

end ParamIsolation
