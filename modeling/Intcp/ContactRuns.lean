import Intcp.ContactIntervals

/-!
# Contacts are maximal runs

The interval that each entry of an access link is filled with is the maximal run of steps
around it in which its satellite, or its pair of ground station and satellite, stays.
-/

namespace ContactRuns

open MaximalRuns Dicts ContactIntervals

variable (round : Rat → Rat)

lemma getBw_some (bwMax : Rat) {startTs endTs : Int} (h : startTs < endTs)
    (currentTs : Int) : ∃ x, getBw round bwMax startTs endTs currentTs = some x := by
  have nonzero : endTs - startTs ≠ 0 := by omega
  simp only [getBw, if_neg nonzero]
  split
  · split <;> exact ⟨_, rfl⟩
  · exact ⟨_, rfl⟩

lemma groundRtt_some (groundLinkRtt : Rat) {rtt : List Rat} (nonempty : rtt ≠ []) :
    groundRtt groundLinkRtt rtt =
      some ((rtt.set 0 groundLinkRtt).set (rtt.length - 1) groundLinkRtt) := by
  have length := List.length_pos_iff.mpr nonempty
  have first : put rtt 0 groundLinkRtt = some (rtt.set 0 groundLinkRtt) := if_pos length
  rw [groundRtt, first, Option.bind_eq_bind, Option.bind_some, putBack, List.length_set]
  exact if_pos length

/-- The index of an access link's entry. -/
def entry : Access → Nat → Nat
  | .downlink, _ => 1
  | .uplink, length => length - 2

lemma access_put (access : Access) {bw : List Rat} (long : 2 ≤ bw.length) (x : Rat) :
    access.put bw x = some (bw.set (entry access bw.length) x) := by
  cases access with
  | downlink => exact if_pos (by omega)
  | uplink => exact if_pos long

/-- A step with the bandwidth that a contact from `startTs` to `endTs` gives at `i`. -/
def withContact (access : Access) (bwMax : Rat) (startTs endTs i : Nat)
    (lp : LinksParam) : LinksParam :=
  { lp with
    bw := lp.bw.set (entry access lp.bw.length) ((getBw round bwMax startTs endTs i).getD 0) }

def Long (lps : List LinksParam) : Prop := ∀ lp ∈ lps, 2 ≤ lp.bw.length

lemma long_set {lps : List LinksParam} (long : Long lps) (j : Nat) {lp : LinksParam}
    (h : 2 ≤ lp.bw.length) : Long (lps.set j lp) := by
  intro other listed
  obtain old | rfl := List.mem_or_eq_of_mem_set listed
  · exact long other old
  · exact h

lemma fillTs_spec (access : Access) (bwMax : Rat) {startTs endTs : Nat} (proper : startTs < endTs)
    (m : Nat) {j : Nat} {lps : List LinksParam} (within : j + m ≤ lps.length) (long : Long lps) :
    ∃ lps', fillTs round access bwMax startTs endTs (List.range' j m) lps = some lps' ∧
      lps'.length = lps.length ∧ Long lps' ∧
      ∀ i, lps'[i]? = if j ≤ i ∧ i < j + m then
        lps[i]?.map (withContact round access bwMax startTs endTs i) else lps[i]? := by
  induction m generalizing j lps with
  | zero =>
    refine ⟨lps, rfl, rfl, long, fun i => ?_⟩
    rw [if_neg (by omega)]
  | succ m ih =>
    have inside : j < lps.length := by omega
    have here := List.getElem?_eq_getElem inside
    have wide : 2 ≤ lps[j].bw.length := long _ (List.getElem_mem inside)
    obtain ⟨x, value⟩ := getBw_some round bwMax (Int.ofNat_lt.mpr proper) j
    have filled : withContact round access bwMax startTs endTs j lps[j] =
        { lps[j] with bw := lps[j].bw.set (entry access lps[j].bw.length) x } := by
      simp [withContact, value]
    have wide' : 2 ≤ (withContact round access bwMax startTs endTs j lps[j]).bw.length := by
      simpa [withContact] using wide
    have within' : j + 1 + m ≤
        (lps.set j (withContact round access bwMax startTs endTs j lps[j])).length := by
      rw [List.length_set]
      omega
    obtain ⟨lps', done, length, long', entries⟩ := ih within' (long_set long j wide')
    refine ⟨lps', ?_, by simpa using length, long', fun i => ?_⟩
    · rw [List.range'_succ, fillTs, value, Option.bind_eq_bind, Option.bind_some, here,
        Option.bind_eq_bind, Option.bind_some, access_put access wide, Option.bind_eq_bind,
        Option.bind_some, ← filled]
      exact done
    · rw [entries i]
      by_cases now : i = j
      · subst now
        rw [if_neg (by omega), if_pos (by omega), here, List.getElem?_set_self inside]
        rfl
      · have same : (j + 1 ≤ i ∧ i < j + 1 + m) ↔ j ≤ i ∧ i < j + (m + 1) := by omega
        rw [if_congr same rfl rfl, List.getElem?_set_ne (Ne.symm now)]

/-- Every step between two adjacent changes is filled with the interval between them. -/
lemma fillChanges_spec (access : Access) (bwMax : Rat) {startTs : Nat} {changeTs : List Nat}
    {lps : List LinksParam} (long : Long lps)
    (proper : ∀ s e, Adjacent (startTs :: changeTs) s e → s < e ∧ e ≤ lps.length) :
    ∃ lps', fillChanges round access bwMax (startTs :: changeTs) lps = some lps' ∧
      lps'.length = lps.length ∧ Long lps' ∧ (∀ i < startTs, lps'[i]? = lps[i]?) ∧
      ∀ s e i, Adjacent (startTs :: changeTs) s e → s ≤ i → i < e →
        lps'[i]? = lps[i]?.map (withContact round access bwMax s e i) := by
  induction changeTs generalizing startTs lps with
  | nil =>
    exact ⟨lps, rfl, rfl, long, fun i _ => rfl, fun s e i h => absurd h not_adjacent_singleton⟩
  | cons endTs changeTs ih =>
    obtain ⟨lt, within⟩ := proper startTs endTs (adjacent_cons.mpr (.inl ⟨rfl, rfl⟩))
    obtain ⟨mid, filled, length, long', entries⟩ :=
      fillTs_spec round access bwMax lt (endTs - startTs) (by omega : startTs + _ ≤ _) long
    have rest : ∀ s e, Adjacent (endTs :: changeTs) s e → s < e ∧ e ≤ mid.length :=
      fun s e h => length ▸ proper s e (adjacent_cons.mpr (.inr h))
    obtain ⟨lps', done, length', long'', early, later⟩ := ih long' rest
    refine ⟨lps', ?_, length'.trans length, long'', fun i h => ?_, fun s e i h hs he => ?_⟩
    · rw [fillChanges, filled, Option.bind_eq_bind, Option.bind_some]
      exact done
    · rw [early i (by omega), entries i, if_neg (by omega)]
    · obtain ⟨rfl, first⟩ | h := adjacent_cons.mp h
      · obtain rfl : endTs = e := Option.some.inj first
        rw [early i he, entries i, if_pos (by omega)]
      · have after := head_le_of_adjacent (fun s e h => (rest s e h).1) h
        rw [later s e i h hs he, entries i, if_neg (by omega)]

def firstSat (lp : LinksParam) : Int := lp.topo.headD 0

def lastSat (lp : LinksParam) : Int := lp.topo.getLastD 0

lemma noteChanges_eq (idx : Nat) (c : Changes) {lp : LinksParam} (visited : lp.topo ≠ []) :
    noteChanges idx c lp.topo = some
      { downlinkChangeTs := c.downlinkChangeTs ++
          changes c.prevDownlinkSatId idx [firstSat lp]
        uplinkChangeTs := c.uplinkChangeTs ++ changes c.prevUplinkSatId idx [lastSat lp]
        prevDownlinkSatId := firstSat lp
        prevUplinkSatId := lastSat lp } := by
  have head : lp.topo.head? = some (firstSat lp) := by
    rw [firstSat, List.headD_eq_head?_getD, List.head?_eq_some_head visited, Option.getD_some]
  have last : lp.topo.getLast? = some (lastSat lp) := by
    rw [lastSat, List.getLastD_eq_getLast?, List.getLast?_eq_some_getLast visited,
      Option.getD_some]
  rw [noteChanges, head, last]
  by_cases down : firstSat lp = c.prevDownlinkSatId
  · by_cases up : lastSat lp = c.prevUplinkSatId
    · simp [changes, down, up]
    · simp [changes, down, up]
  · by_cases up : lastSat lp = c.prevUplinkSatId
    · simp [changes, down, up]
    · simp [changes, down, up]

lemma changes_cons (prev : Int) (idx : Nat) (a : Int) (l : List Int) :
    changes prev idx (a :: l) = changes prev idx [a] ++ changes a (idx + 1) l := by
  by_cases same : a = prev
  · subst same
    simp [changes]
  · simp [changes, same]

/-- The vectors have an entry for each link of the chain, and the step keeps its topology. -/
structure Complete (lp out : LinksParam) : Prop where
  topo : out.topo = lp.topo
  rtt : out.rtt.length = lp.topo.length + 3
  loss : out.loss.length = lp.topo.length + 3
  bw : out.bw.length = lp.topo.length + 3

lemma completeStep_spec (r : Rates) {lp : LinksParam} (visited : lp.topo ≠ [])
    (rtts : lp.rtt.length = lp.topo.length + 3) :
    ∃ out, completeStep r lp = some out ∧ Complete lp out := by
  have sats := List.length_pos_iff.mpr visited
  have nonempty : lp.rtt ≠ [] := List.length_pos_iff.mp (by omega)
  rw [completeStep, groundRtt_some _ nonempty]
  refine ⟨_, rfl, rfl, by simpa using rtts, ?_, ?_⟩
  · simp only [List.length_append, List.length_cons, List.length_nil, List.length_replicate]
    omega
  · simp only [List.length_append, List.length_cons, List.length_nil, List.length_replicate]
    omega

lemma completeSteps_spec (r : Rates) {lps : List LinksParam} (visited : ∀ lp ∈ lps, lp.topo ≠ [])
    (rtts : ∀ lp ∈ lps, lp.rtt.length = lp.topo.length + 3) (idx : Nat) (c : Changes) :
    ∃ c' lps', completeSteps r idx c lps = some (c', lps') ∧
      List.Forall₂ (fun lp out => completeStep r lp = some out ∧ Complete lp out) lps lps' ∧
      c'.downlinkChangeTs =
        c.downlinkChangeTs ++ changes c.prevDownlinkSatId idx (lps.map firstSat) ∧
      c'.uplinkChangeTs = c.uplinkChangeTs ++ changes c.prevUplinkSatId idx (lps.map lastSat) := by
  induction lps generalizing idx c with
  | nil => exact ⟨c, [], rfl, .nil, by simp [changes], by simp [changes]⟩
  | cons lp lps ih =>
    obtain ⟨out, step, complete⟩ := completeStep_spec r (visited lp (List.mem_cons_self ..))
      (rtts lp (List.mem_cons_self ..))
    have noted := noteChanges_eq idx c (visited lp (List.mem_cons_self ..))
    obtain ⟨c', outs, rest, each, down, up⟩ := ih
      (fun lp h => visited lp (List.mem_cons_of_mem _ h))
      (fun lp h => rtts lp (List.mem_cons_of_mem _ h)) (idx + 1) _
    refine ⟨c', out :: outs, ?_, .cons ⟨step, complete⟩ each, ?_, ?_⟩
    · rw [completeSteps, noted, Option.bind_eq_bind, Option.bind_some, step, Option.bind_eq_bind,
        Option.bind_some, rest]
      rfl
    · rw [down, List.map_cons, changes_cons _ idx _ (lps.map firstSat), List.append_assoc]
    · rw [up, List.map_cons, changes_cons _ idx _ (lps.map lastSat), List.append_assoc]

/-- The maximal run of steps around `i` in which the satellite `sat` stays. -/
def Contact (sat : LinksParam → Int) (lps : List LinksParam) (i startTs endTs : Nat) : Prop :=
  startTs ≤ i ∧ i < endTs ∧ ∃ id, lps[i]?.map sat = some id ∧
    MaximalRun (fun j => lps[j]?.map sat = some id) lps.length startTs endTs

/-- The changes of a satellite bound its contacts, and every step is in one. -/
lemma contacts_of_changes {sat : LinksParam → Int} {lps : List LinksParam}
    (real : ∀ lp ∈ lps, 1 ≤ sat lp) :
    (∀ s e, Adjacent (changes (-2) 0 (lps.map sat) ++ [lps.length]) s e →
      s < e ∧ e ≤ lps.length ∧ ∀ i, s ≤ i → i < e → Contact sat lps i s e) ∧
    ∀ i < lps.length, ∃ s e, Adjacent (changes (-2) 0 (lps.map sat) ++ [lps.length]) s e ∧
      s ≤ i ∧ i < e := by
  have differ : (lps.map sat).head? ≠ some (-2) := by
    cases lps with
    | nil => simp
    | cons lp lps =>
      have := real lp (List.mem_cons_self ..)
      simp
      omega
  have cut := changes_cut differ
  simp only [List.length_map, List.getElem?_map] at cut
  refine ⟨fun s e h => ?_, cut.2⟩
  obtain ⟨id, run⟩ := cut.1 s e h
  exact ⟨run.nonempty, run.within, fun i hs he => ⟨hs, he, id, run.holds i hs he, run⟩⟩

/-- One access link in `add_bw_fluct`, with the changes of its satellite. -/
lemma fillChanges_contacts (access : Access) (bwMax : Rat) {sat : LinksParam → Int}
    {lps steps : List LinksParam} (real : ∀ lp ∈ lps, 1 ≤ sat lp) (long : Long steps)
    (length : steps.length = lps.length) :
    ∃ filled, fillChanges round access bwMax (changes (-2) 0 (lps.map sat) ++ [lps.length]) steps =
        some filled ∧ filled.length = steps.length ∧ Long filled ∧
      ∀ i < lps.length, ∃ s e, Adjacent (changes (-2) 0 (lps.map sat) ++ [lps.length]) s e ∧
        Contact sat lps i s e ∧
        filled[i]? = steps[i]?.map (withContact round access bwMax s e i) := by
  obtain ⟨runs, covers⟩ := contacts_of_changes real
  obtain ⟨start, ts, list⟩ := List.exists_cons_of_ne_nil
    (show changes (-2) 0 (lps.map sat) ++ [lps.length] ≠ [] by simp)
  rw [list] at runs covers ⊢
  obtain ⟨filled, done, same, long', -, entries⟩ := fillChanges_spec round access bwMax long
    fun s e h => ⟨(runs s e h).1, length ▸ (runs s e h).2.1⟩
  refine ⟨filled, done, same, long', fun i inside => ?_⟩
  obtain ⟨s, e, adjacent, hs, he⟩ := covers i inside
  exact ⟨s, e, adjacent, (runs s e adjacent).2.2 i hs he, entries s e i adjacent hs he⟩

/-- The fluctuation changes bandwidths and nothing else. -/
structure SameLinks (base out : LinksParam) : Prop where
  topo : out.topo = base.topo
  rtt : out.rtt = base.rtt
  loss : out.loss = base.loss
  length : out.bw.length = base.bw.length

lemma SameLinks.complete {lp base out : LinksParam} (same : SameLinks base out)
    (complete : Complete lp base) : Complete lp out where
  topo := same.topo.trans complete.topo
  rtt := same.rtt ▸ complete.rtt
  loss := same.loss ▸ complete.loss
  bw := same.length.trans complete.bw

/-- What the fluctuation makes of the step `base`, and which interval each entry is from. -/
structure AccessFilled (r : Rates) (c : Changes) (lps : List LinksParam) (i : Nat)
    (base out : LinksParam) : Prop extends SameLinks base out where
  downlink : ∃ s e x, Adjacent (c.downlinkChangeTs ++ [lps.length]) s e ∧
    Contact firstSat lps i s e ∧ getBw round r.downlinkBw s e i = some x ∧ out.bw[1]? = some x
  uplink : ∃ s e x, Adjacent (c.uplinkChangeTs ++ [lps.length]) s e ∧
    Contact lastSat lps i s e ∧ getBw round r.uplinkBw s e i = some x ∧
    out.bw[base.topo.length + 1]? = some x
  others : ∀ k, k ≠ 1 → k ≠ base.topo.length + 1 → out.bw[k]? = base.bw[k]?

lemma withContact_filled {r : Rates} {c : Changes} {lps : List LinksParam} {i : Nat}
    {base : LinksParam} (visited : base.topo ≠ []) (bw : base.bw.length = base.topo.length + 3)
    {s e s' e' : Nat} (adjacent : Adjacent (c.downlinkChangeTs ++ [lps.length]) s e)
    (contact : Contact firstSat lps i s e)
    (adjacent' : Adjacent (c.uplinkChangeTs ++ [lps.length]) s' e')
    (contact' : Contact lastSat lps i s' e') :
    AccessFilled round r c lps i base
      (withContact round .uplink r.uplinkBw s' e' i
        (withContact round .downlink r.downlinkBw s e i base)) := by
  have sats := List.length_pos_iff.mpr visited
  have down : s < e := contact.1.trans_lt contact.2.1
  have up : s' < e' := contact'.1.trans_lt contact'.2.1
  obtain ⟨x, value⟩ := getBw_some round r.downlinkBw (Int.ofNat_lt.mpr down) i
  obtain ⟨x', value'⟩ := getBw_some round r.uplinkBw (Int.ofNat_lt.mpr up) i
  have filled : (withContact round .uplink r.uplinkBw s' e' i
      (withContact round .downlink r.downlinkBw s e i base)).bw =
        (base.bw.set 1 x).set (base.topo.length + 1) x' := by
    simp [withContact, value, value', entry, bw]
  refine ⟨⟨rfl, rfl, rfl, by rw [filled]; simp⟩, ?_, ?_, ?_⟩
  · refine ⟨s, e, x, adjacent, contact, value, ?_⟩
    rw [filled, List.getElem?_set_ne (by omega), List.getElem?_set_self (by omega)]
  · refine ⟨s', e', x', adjacent', contact', value', ?_⟩
    rw [filled, List.getElem?_set_self (by rw [List.length_set]; omega)]
  · intro k notDown notUp
    rw [filled, List.getElem?_set_ne notUp.symm, List.getElem?_set_ne notDown.symm]

lemma firstSat_mem {lp : LinksParam} (visited : lp.topo ≠ []) : firstSat lp ∈ lp.topo := by
  obtain ⟨id, topo, shape⟩ := List.exists_cons_of_ne_nil visited
  simp [firstSat, shape]

lemma lastSat_mem {lp : LinksParam} (visited : lp.topo ≠ []) : lastSat lp ∈ lp.topo := by
  rw [lastSat, List.getLastD_eq_getLast?, List.getLast?_eq_some_getLast visited]
  exact List.getLast_mem visited

/-- The fluctuation of a trace over ISLs uses the contacts of the first and the last
satellite. -/
lemma getCompleteTrace_contacts (r : Rates) (origin : OriginTrace) :
    ∃ c plain fluct, getCompleteTrace round r false origin.toTrace = some plain ∧
      getCompleteTrace round r true origin.toTrace = some fluct ∧
      completeSteps r 0 ⟨[], [], -2, -2⟩ origin.linksParams = some (c, plain.linksParams) ∧
      plain.linksParams.length = origin.linksParams.length ∧
      fluct.linksParams.length = origin.linksParams.length ∧
      ∀ i lp, origin.linksParams[i]? = some lp → ∃ base out,
        plain.linksParams[i]? = some base ∧ fluct.linksParams[i]? = some out ∧
        Complete lp base ∧ AccessFilled round r c origin.linksParams i base out := by
  obtain ⟨c, lps, done, each, downs, ups⟩ :=
    completeSteps_spec r origin.visited origin.rtts 0 ⟨[], [], -2, -2⟩
  have length := each.length_eq
  have long : Long lps := by
    intro out listed
    obtain ⟨i, inside, rfl⟩ := List.getElem_of_mem listed
    have complete := (List.forall₂_iff_get.mp each).2 i (length ▸ inside) inside
    have := complete.2.bw
    simp only [List.get_eq_getElem] at this
    omega
  have realFirst : ∀ lp ∈ origin.linksParams, 1 ≤ firstSat lp := fun lp h =>
    origin.ids lp h _ (firstSat_mem (origin.visited lp h))
  have realLast : ∀ lp ∈ origin.linksParams, 1 ≤ lastSat lp := fun lp h =>
    origin.ids lp h _ (lastSat_mem (origin.visited lp h))
  simp only [List.nil_append] at downs ups
  obtain ⟨mid, filled, lengthMid, longMid, entries⟩ :=
    fillChanges_contacts round .downlink r.downlinkBw realFirst long length.symm
  obtain ⟨outs, filled', lengthOut, -, entries'⟩ := fillChanges_contacts round .uplink r.uplinkBw
    realLast longMid (lengthMid.trans length.symm)
  rw [← downs] at filled entries
  rw [← ups] at filled' entries'
  refine ⟨c, { origin.toTrace with linksParams := lps },
    { origin.toTrace with linksParams := outs },
    ?_, ?_, done, length.symm, (lengthOut.trans lengthMid).trans length.symm, fun i lp here => ?_⟩
  · simp [getCompleteTrace, done]
  · simp only [getCompleteTrace, done, Option.bind_eq_bind, Option.bind_some, if_true, addBwFluct,
      ← length, filled, filled']
  · obtain ⟨inside, rfl⟩ := List.getElem?_eq_some_iff.mp here
    have inside' : i < lps.length := length ▸ inside
    have complete := (List.forall₂_iff_get.mp each).2 i inside inside'
    simp only [List.get_eq_getElem] at complete
    obtain ⟨s, e, adjacent, contact, entry⟩ := entries i inside
    obtain ⟨s', e', adjacent', contact', entry'⟩ := entries' i inside
    have base := List.getElem?_eq_getElem inside'
    refine ⟨lps[i], _, base, ?_, complete.2,
      withContact_filled round ?_ ?_ adjacent contact adjacent' contact'⟩
    · rw [entry', entry, base]
      rfl
    · rw [complete.2.topo]
      exact origin.visited _ (List.getElem_mem inside)
    · rw [complete.2.bw, complete.2.topo]

/-- A downlink of a step, and the index of its entry. -/
def Downlink (topo : List Int) (pair : Int × Int) (entry : Nat) : Prop :=
  (∃ sat, topo[0]? = some sat ∧ pair = (0, sat) ∧ entry = 1) ∨
  ∃ j gs sat, j % 2 = 1 ∧ topo[j]? = some gs ∧ topo[j + 1]? = some sat ∧ pair = (gs, sat) ∧
    entry = j + 2

lemma notePairs_spec {topo : List Int} {is : List Nat} (info : DownlinkInfo)
    (inside : ∀ i ∈ is, i % 2 = 1 → i + 1 < topo.length) :
    ∃ info', notePairs topo is info = some info' ∧ ∀ pair, pair ∈ keys info' ↔
      pair ∈ keys info ∨ ∃ i ∈ is, i % 2 = 1 ∧ ∃ gs sat, topo[i]? = some gs ∧
        topo[i + 1]? = some sat ∧ pair = (gs, sat) := by
  induction is generalizing info with
  | nil => exact ⟨info, rfl, by simp⟩
  | cons i is ih =>
    have inside' := fun k h => inside k (List.mem_cons_of_mem i h)
    by_cases odd : i % 2 = 1
    · have next : i + 1 < topo.length := inside i (List.mem_cons_self ..) odd
      have gs := List.getElem?_eq_getElem (Nat.lt_of_succ_lt next)
      have sat := List.getElem?_eq_getElem next
      obtain ⟨info', done, pairs⟩ :=
        ih (assign info (topo[i], topo[i + 1]) (-1, -1)) inside'
      refine ⟨info', by simpa [notePairs, odd, gs, sat] using done, fun pair => ?_⟩
      rw [pairs, mem_keys_assign, or_assoc]
      simp [odd, gs, sat]
    · obtain ⟨info', done, pairs⟩ := ih info inside'
      refine ⟨info', by simpa [notePairs, odd] using done, fun pair => ?_⟩
      rw [pairs]
      simp [odd]

lemma downlinkInfo_spec {topo : List Int} (odd : topo.length % 2 = 1) :
    ∃ info, downlinkInfo topo = some info ∧
      ∀ pair, pair ∈ keys info ↔ ∃ entry, Downlink topo pair entry := by
  have first := List.getElem?_eq_getElem (by omega : 0 < topo.length)
  obtain ⟨info, done, pairs⟩ := notePairs_spec (assign [] (0, topo[0]) (-1, -1))
    (by simp; omega : ∀ i ∈ List.range topo.length, i % 2 = 1 → i + 1 < topo.length)
  refine ⟨info, by rw [downlinkInfo, first, Option.bind_eq_bind, Option.bind_some, done],
    fun pair => ?_⟩
  rw [pairs]
  constructor
  · rintro (h | ⟨i, -, h, gs, sat, hgs, hsat, rfl⟩)
    · exact ⟨1, .inl ⟨_, first, by simpa [assign, keys] using h, rfl⟩⟩
    · exact ⟨_, .inr ⟨i, gs, sat, h, hgs, hsat, rfl, rfl⟩⟩
  · rintro ⟨entry, ⟨sat, hsat, rfl, -⟩ | ⟨i, gs, sat, h, hgs, hsat, rfl, -⟩⟩
    · obtain rfl := Option.some.inj (first.symm.trans hsat)
      exact .inl (by simp [assign, keys])
    · obtain ⟨inside, -⟩ := List.getElem?_eq_some_iff.mp hgs
      exact .inr ⟨i, List.mem_range.mpr inside, h, gs, sat, hgs, hsat, rfl⟩

/-- The pair is one of step `j`'s. -/
def Present (steps : List (List (Int × Int))) (pair : Int × Int) (j : Nat) : Prop :=
  ∃ pairs, steps[j]? = some pairs ∧ pair ∈ pairs

def StartsAt (steps : List (List (Int × Int))) (pair : Int × Int) (i s : Nat) : Prop :=
  s ≤ i ∧ (∀ j, s ≤ j → j ≤ i → Present steps pair j) ∧ (s = 0 ∨ ¬ Present steps pair (s - 1))

def EndsAt (steps : List (List (Int × Int))) (pair : Int × Int) (i e : Nat) : Prop :=
  i < e ∧ e ≤ steps.length ∧ (∀ j, i ≤ j → j < e → Present steps pair j) ∧
    (e = steps.length ∨ ¬ Present steps pair e)

/-- What is known of the step before once it is filled. -/
def Filled (steps front : List (List (Int × Int))) (prev : Option DownlinkInfo) : Prop :=
  (front = [] ∧ prev = none) ∨ ∃ info, prev = some info ∧ front.getLast? = some (keys info) ∧
    ∀ pair ∈ keys info, ∃ (s : Nat) (e : Int), get? info pair = some ((s : Int), e) ∧
      StartsAt steps pair (front.length - 1) s

lemma startOf_spec {steps front back : List (List (Int × Int))} {pairs : List (Int × Int)}
    (all : steps = front ++ pairs :: back) {prev : Option DownlinkInfo}
    (filled : Filled steps front prev) {pair : Int × Int} (listed : pair ∈ pairs) :
    ∃ s : Nat, startOf prev front.length pair = s ∧ StartsAt steps pair front.length s := by
  have here : Present steps pair front.length := ⟨pairs, by simp [all], listed⟩
  have alone (before : front.length = 0 ∨ ¬ Present steps pair (front.length - 1)) :
      StartsAt steps pair front.length front.length := by
    refine ⟨le_rfl, fun j hj hj' => ?_, before⟩
    obtain rfl : j = front.length := by omega
    exact here
  obtain ⟨rfl, rfl⟩ | ⟨info, rfl, last, starts⟩ := filled
  · exact ⟨0, rfl, alone (.inl rfl)⟩
  · have nonempty : front ≠ [] := by
      rintro rfl
      cases last
    have length := List.length_pos_iff.mpr nonempty
    have earlier : steps[front.length - 1]? = some (keys info) := by
      rw [all, List.getElem?_append_left (by omega), ← List.getLast?_eq_getElem?, last]
    by_cases known : pair ∈ keys info
    · obtain ⟨s, e, value, le, holds, before⟩ := starts pair known
      refine ⟨s, by simp [startOf, value], by omega, fun j hj hj' => ?_, before⟩
      by_cases old : j ≤ front.length - 1
      · exact holds j hj old
      · obtain rfl : j = front.length := by omega
        exact here
    · refine ⟨front.length, by simp [startOf, get?_eq_none.mpr known], alone (.inr ?_)⟩
      rintro ⟨pairs', at', listed'⟩
      rw [earlier] at at'
      exact known (Option.some.inj at' ▸ listed')

/-- The pass forwards. -/
lemma fillStart_spec {steps front : List (List (Int × Int))} {prev : Option DownlinkInfo}
    {infos : List DownlinkInfo} (all : steps = front ++ infos.map keys)
    (filled : Filled steps front prev) :
    (fillStart prev front.length infos).map keys = infos.map keys ∧
      ∀ k info, (fillStart prev front.length infos)[k]? = some info → ∀ pair ∈ keys info,
        ∃ (s : Nat) (e : Int), get? info pair = some ((s : Int), e) ∧
          StartsAt steps pair (front.length + k) s := by
  induction infos generalizing front prev with
  | nil => exact ⟨rfl, by simp [fillStart]⟩
  | cons info infos ih =>
    have all' : steps = (front ++ [keys info]) ++ infos.map keys := by simpa using all
    have length : (front ++ [keys info]).length = front.length + 1 := by simp
    let info' := info.map fun item => (item.1, (startOf prev front.length item.1, item.2.2))
    have same : keys info' = keys info :=
      keys_mapValues info fun pair value => (startOf prev front.length pair, value.2)
    have values : ∀ pair ∈ keys info', ∃ (s : Nat) (e : Int),
        get? info' pair = some ((s : Int), e) ∧
        StartsAt steps pair front.length s := by
      intro pair listed
      obtain ⟨s, start, starts⟩ := startOf_spec all filled (same ▸ listed)
      obtain ⟨value, held⟩ := Option.isSome_iff_exists.mp (get?_isSome.mpr (same ▸ listed))
      refine ⟨s, value.2, ?_, starts⟩
      rw [get?_mapValues info fun pair value => (startOf prev front.length pair, value.2), held,
        Option.map_some, start]
    have filled' : Filled steps (front ++ [keys info]) (some info') :=
      .inr ⟨info', rfl, by simp [same], by simpa [length] using values⟩
    obtain ⟨names, rest⟩ := ih all' filled'
    rw [length] at names rest
    refine ⟨?_, fun k out at' => ?_⟩
    · rw [fillStart, List.map_cons, List.map_cons, names]
      exact congrArg (· :: _) same
    · cases k with
      | zero =>
        obtain rfl : info' = out := by simpa [fillStart] using at'
        exact values
      | succ k =>
        have shift : front.length + (k + 1) = front.length + 1 + k := by omega
        rw [shift]
        exact rest k out (by simpa [fillStart] using at')

/-- What is known of the step behind once it is filled. -/
def FilledBehind (steps : List (List (Int × Int))) (i : Nat) (next : Option DownlinkInfo) : Prop :=
  (i = steps.length ∧ next = none) ∨ ∃ info, next = some info ∧ steps[i]? = some (keys info) ∧
    ∀ pair ∈ keys info, ∃ (s : Int) (e : Nat), get? info pair = some (s, (e : Int)) ∧
      EndsAt steps pair i e

lemma endOf_spec {steps : List (List (Int × Int))} {i : Nat} {next : Option DownlinkInfo}
    (filled : FilledBehind steps (i + 1) next) {pair : Int × Int} (here : Present steps pair i) :
    ∃ e : Nat, endOf next i pair = e ∧ EndsAt steps pair i e := by
  have inside : i < steps.length := by
    obtain ⟨pairs, at', -⟩ := here
    exact (List.getElem?_eq_some_iff.mp at').1
  have alone (after : i + 1 = steps.length ∨ ¬ Present steps pair (i + 1)) :
      EndsAt steps pair i (i + 1) := by
    refine ⟨by omega, by omega, fun j hj hj' => ?_, after⟩
    obtain rfl : j = i := by omega
    exact here
  obtain ⟨last, rfl⟩ | ⟨info, rfl, behind, ends⟩ := filled
  · exact ⟨i + 1, by simp [endOf], alone (.inl last)⟩
  · by_cases known : pair ∈ keys info
    · obtain ⟨s, e, value, lt, within, holds, after⟩ := ends pair known
      refine ⟨e, by simp [endOf, value], by omega, within, fun j hj hj' => ?_, after⟩
      by_cases now : j = i
      · exact now ▸ here
      · exact holds j (by omega) hj'
    · refine ⟨i + 1, by simp [endOf, get?_eq_none.mpr known], alone (.inr ?_)⟩
      rintro ⟨pairs', at'', listed⟩
      rw [behind] at at''
      exact known (Option.some.inj at'' ▸ listed)

/-- The pass backwards, which keeps the starts. -/
lemma fillEnd_spec {steps front : List (List (Int × Int))} {infos : List DownlinkInfo}
    (all : steps = front ++ infos.map keys) :
    (fillEnd front.length infos).map keys = infos.map keys ∧
      ∀ k info, infos[k]? = some info → ∃ info', (fillEnd front.length infos)[k]? = some info' ∧
        ∀ pair value, get? info pair = some value → ∃ e : Nat,
          get? info' pair = some (value.1, (e : Int)) ∧
            EndsAt steps pair (front.length + k) e := by
  induction infos generalizing front with
  | nil => exact ⟨rfl, by simp⟩
  | cons info infos ih =>
    have all' : steps = (front ++ [keys info]) ++ infos.map keys := by simpa using all
    have length : (front ++ [keys info]).length = front.length + 1 := by simp
    have total : steps.length = front.length + (infos.length + 1) := by simp [all]
    obtain ⟨names, rest⟩ := ih all'
    rw [length] at names rest
    let later := fillEnd (front.length + 1) infos
    refine ⟨?_, fun k given at' => ?_⟩
    · rw [fillEnd, List.map_cons, List.map_cons, names]
      exact congrArg (· :: _)
        (keys_mapValues info fun pair value => (value.1, endOf later.head? front.length pair))
    · cases k with
      | succ k =>
        have shift : front.length + (k + 1) = front.length + 1 + k := by omega
        rw [shift]
        simpa [fillEnd] using rest k given (by simpa using at')
      | zero =>
        obtain rfl : info = given := by simpa using at'
        refine ⟨_, rfl, fun pair value held => ?_⟩
        have here : Present steps pair front.length :=
          ⟨keys info, by simp [all], get?_isSome.mp (by simp [held])⟩
        have behind : FilledBehind steps (front.length + 1) later.head? := by
          cases infos with
          | nil => exact .inl ⟨total.symm, rfl⟩
          | cons info' infos =>
            obtain ⟨filled, first, values⟩ := rest 0 info' rfl
            have sameKeys : keys filled = keys info' := by
              have keyed := congrArg (·[0]?) names
              simpa [first] using keyed
            refine .inr ⟨filled, List.head?_eq_getElem?.trans first, by simp [all, sameKeys], ?_⟩
            intro pair' known
            obtain ⟨value', held'⟩ :=
              Option.isSome_iff_exists.mp (get?_isSome.mpr (sameKeys ▸ known))
            obtain ⟨e, found, ends⟩ := values pair' value' held'
            exact ⟨value'.1, e, found, ends⟩
        obtain ⟨e, ending, ends⟩ := endOf_spec behind here
        refine ⟨e, ?_, ends⟩
        rw [get?_mapValues info fun pair value =>
          (value.1, endOf later.head? front.length pair), held, Option.map_some, ending]

/-- After both passes each pair of each step has its maximal run. -/
lemma filled_runs (infos : List DownlinkInfo) {k : Nat} {info : DownlinkInfo}
    (here : infos[k]? = some info) :
    ∃ filled, (fillEnd 0 (fillStart none 0 infos))[k]? = some filled ∧ ∀ pair ∈ keys info,
      ∃ s e : Nat, get? filled pair = some ((s : Int), (e : Int)) ∧ s ≤ k ∧ k < e ∧
        MaximalRun (Present (infos.map keys) pair) infos.length s e := by
  obtain ⟨names, starts⟩ := @fillStart_spec (infos.map keys) [] none infos rfl (.inl ⟨rfl, rfl⟩)
  obtain ⟨-, ends⟩ := @fillEnd_spec (infos.map keys) [] (fillStart none 0 infos) names.symm
  obtain ⟨inside, -⟩ := List.getElem?_eq_some_iff.mp here
  have length : (fillStart none 0 infos).length = infos.length := by
    simpa using congrArg List.length names
  have middle :=
    List.getElem?_eq_getElem (length.symm ▸ inside : k < (fillStart none 0 infos).length)
  have sameKeys : keys (fillStart none 0 infos)[k] = keys info := by
    have keyed := congrArg (·[k]?) names
    simpa [middle, here] using keyed
  obtain ⟨filled, at', values⟩ := ends k _ middle
  refine ⟨filled, at', fun pair listed => ?_⟩
  obtain ⟨s, e₀, start, le, left, before⟩ := starts k _ middle pair (sameKeys ▸ listed)
  obtain ⟨e, both, lt, within, right, after⟩ := values pair _ start
  simp only [List.length_nil, Nat.zero_add, List.length_map] at le left lt within right after
  exact ⟨s, e, both, le, lt, .of_halves le lt within left before right after⟩

/-- The fill of the entries of a step, given the intervals of its pairs. -/
lemma fillPairs_spec (downlinkBw : Rat) {info : DownlinkInfo} {topo : List Int} (i : Nat)
    (known : ∀ pair entry, Downlink topo pair entry →
      ∃ s e, get? info pair = some (s, e) ∧ s < e)
    {js : List Nat} (inside : ∀ j ∈ js, j % 2 = 1 → j + 1 < topo.length) {bw : List Rat}
    (long : topo.length + 2 ≤ bw.length) :
    ∃ bw', fillPairs round downlinkBw info topo i js bw = some bw' ∧ bw'.length = bw.length ∧
      (∀ k, (∀ j ∈ js, j % 2 = 1 → k ≠ j + 2) → bw'[k]? = bw[k]?) ∧
      ∀ j ∈ js, j % 2 = 1 → ∀ gs sat, topo[j]? = some gs → topo[j + 1]? = some sat →
        ∃ s e x, get? info (gs, sat) = some (s, e) ∧ getBw round downlinkBw s e i = some x ∧
          bw'[j + 2]? = some x := by
  induction js generalizing bw with
  | nil => exact ⟨bw, rfl, rfl, fun k _ => rfl, by simp⟩
  | cons j js ih =>
    have inside' := fun k h => inside k (List.mem_cons_of_mem j h)
    by_cases odd : j % 2 = 1
    · have next := inside j (List.mem_cons_self ..) odd
      have gs := List.getElem?_eq_getElem (Nat.lt_of_succ_lt next)
      have sat := List.getElem?_eq_getElem next
      obtain ⟨s, e, found, proper⟩ := known _ _ (.inr ⟨j, _, _, odd, gs, sat, rfl, rfl⟩)
      obtain ⟨x, value⟩ := getBw_some round downlinkBw proper i
      have room : j + 2 < bw.length := by omega
      have written : put bw (j + 2) x = some (bw.set (j + 2) x) := if_pos room
      obtain ⟨bw', done, length, others, entries⟩ :=
        ih inside' (by rw [List.length_set]; exact long : _ ≤ (bw.set (j + 2) x).length)
      refine ⟨bw', ?_, by simpa using length, fun k other => ?_, fun j' listed odd' gs' sat' => ?_⟩
      · rw [fillPairs, if_pos odd, gs, sat]
        simpa [found, value, written] using done
      · have notHere : k ≠ j + 2 := other j (List.mem_cons_self ..) odd
        rw [others k fun j' h => other j' (List.mem_cons_of_mem _ h),
          List.getElem?_set_ne notHere.symm]
      · by_cases later : j' ∈ js
        · exact entries j' later odd' gs' sat'
        · obtain rfl : j' = j := (List.mem_cons.mp listed).resolve_right later
          intro hgs hsat
          obtain rfl := Option.some.inj (gs.symm.trans hgs)
          obtain rfl := Option.some.inj (sat.symm.trans hsat)
          refine ⟨s, e, x, found, value, ?_⟩
          rw [others (j' + 2) fun k h _ same => later (by
            obtain rfl : j' = k := by omega
            exact h), List.getElem?_set_self room]
    · obtain ⟨bw', done, length, others, entries⟩ := ih inside' long
      refine ⟨bw', ?_, length,
        fun k other => others k fun j' h => other j' (List.mem_cons_of_mem _ h),
        fun j' listed odd' => ?_⟩
      · rw [fillPairs, if_neg odd]
        exact done
      · obtain rfl | later := List.mem_cons.mp listed
        · exact absurd odd' odd
        · exact entries j' later odd'

/-- What the fluctuation makes of the step `base` with these intervals. -/
structure RelayFilled (downlinkBw : Rat) (info : DownlinkInfo) (i : Nat) (base out : LinksParam) :
    Prop extends SameLinks base out where
  downlinks : ∀ pair entry, Downlink base.topo pair entry → ∃ s e x,
    get? info pair = some (s, e) ∧ getBw round downlinkBw s e i = some x ∧ out.bw[entry]? = some x
  others : ∀ k, (∀ pair, ¬ Downlink base.topo pair k) → out.bw[k]? = base.bw[k]?

lemma fillRelayStep_spec (downlinkBw : Rat) (i : Nat) {info : DownlinkInfo} {base : LinksParam}
    (odd : base.topo.length % 2 = 1) (bw : base.bw.length = base.topo.length + 3)
    (known : ∀ pair entry, Downlink base.topo pair entry →
      ∃ s e, get? info pair = some (s, e) ∧ s < e) :
    ∃ out, fillRelayStep round downlinkBw i info base = some out ∧
      RelayFilled round downlinkBw info i base out := by
  have first := List.getElem?_eq_getElem (by omega : 0 < base.topo.length)
  obtain ⟨s, e, found, proper⟩ := known _ _ (.inl ⟨_, first, rfl, rfl⟩)
  obtain ⟨x, value⟩ := getBw_some round downlinkBw proper i
  have written : put base.bw 1 x = some (base.bw.set 1 x) := if_pos (by omega)
  have inside : ∀ j ∈ List.range base.topo.length, j % 2 = 1 → j + 1 < base.topo.length := by
    simp
    omega
  obtain ⟨bw', done, length, others, entries⟩ := fillPairs_spec round downlinkBw i known
    inside (by rw [List.length_set]; omega : _ ≤ (base.bw.set 1 x).length)
  refine ⟨{ base with bw := bw' }, ?_, ⟨rfl, rfl, rfl, by simpa using length⟩, ?_, ?_⟩
  · rw [fillRelayStep, first]
    simp [found, value, written, done]
  · rintro pair entry (⟨sat, hsat, rfl, rfl⟩ | ⟨j, gs, sat, hodd, hgs, hsat, rfl, rfl⟩)
    · obtain rfl := Option.some.inj (first.symm.trans hsat)
      refine ⟨s, e, x, found, value, ?_⟩
      rw [others 1 fun j _ _ => by omega, List.getElem?_set_self (by omega)]
    · obtain ⟨here, -⟩ := List.getElem?_eq_some_iff.mp hgs
      exact entries j (List.mem_range.mpr here) hodd gs sat hgs hsat
  · intro k outside
    rw [others k, List.getElem?_set_ne]
    · rintro rfl
      exact outside _ (.inl ⟨_, first, rfl, rfl⟩)
    · rintro j listed hodd rfl
      have next := inside j listed hodd
      exact outside _ (.inr ⟨j, _, _, hodd, List.getElem?_eq_getElem (Nat.lt_of_succ_lt next),
        List.getElem?_eq_getElem next, rfl, rfl⟩)

lemma fillRelaySteps_spec (downlinkBw : Rat) {i : Nat} {infos : List DownlinkInfo}
    {lps : List LinksParam} (length : infos.length = lps.length)
    (each : ∀ k info base, infos[k]? = some info → lps[k]? = some base →
      ∃ out, fillRelayStep round downlinkBw (i + k) info base = some out) :
    ∃ outs, fillRelaySteps round downlinkBw i infos lps = some outs ∧ outs.length = lps.length ∧
      ∀ k info base, infos[k]? = some info → lps[k]? = some base → ∃ out, outs[k]? = some out ∧
        fillRelayStep round downlinkBw (i + k) info base = some out := by
  induction lps generalizing i infos with
  | nil =>
    refine ⟨[], ?_, rfl, by simp⟩
    rw [fillRelaySteps.eq_def]
  | cons base lps ih =>
    cases infos with
    | nil => simp at length
    | cons info infos =>
      obtain ⟨out, here⟩ := each 0 info base rfl rfl
      have shift (k : Nat) : i + (k + 1) = i + 1 + k := by omega
      obtain ⟨outs, done, lengths, entries⟩ := ih (i := i + 1) (by simpa using length)
        fun k info base hinfo hbase => shift k ▸ each (k + 1) info base hinfo hbase
      refine ⟨out :: outs, ?_, by simp [lengths], fun k info' base' hinfo hbase => ?_⟩
      · rw [Nat.add_zero] at here
        simp [fillRelaySteps, here, done]
      · cases k with
        | zero =>
          obtain rfl : info = info' := by simpa using hinfo
          obtain rfl : base = base' := by simpa using hbase
          exact ⟨out, rfl, here⟩
        | succ k =>
          rw [shift]
          simpa using entries k info' base' (by simpa using hinfo) (by simpa using hbase)

lemma mapM_spec {A B : Type} {f : A → Option B} {Q : A → B → Prop} {l : List A}
    (each : ∀ a ∈ l, ∃ b, f a = some b ∧ Q a b) :
    ∃ bs, l.mapM f = some bs ∧ List.Forall₂ Q l bs := by
  induction l with
  | nil => exact ⟨[], rfl, .nil⟩
  | cons a l ih =>
    obtain ⟨b, here, hb⟩ := each a (List.mem_cons_self ..)
    obtain ⟨bs, rest, hbs⟩ := ih fun a h => each a (List.mem_cons_of_mem _ h)
    exact ⟨b :: bs, by simp [List.mapM_cons, here, rest], .cons hb hbs⟩

lemma completeRelayStep_spec (r : Rates) {lp : LinksParam} (odd : lp.topo.length % 2 = 1)
    (rtts : lp.rtt.length = lp.topo.length + 3) :
    ∃ out, completeRelayStep r lp = some out ∧ Complete lp out := by
  have nonempty : lp.rtt ≠ [] := List.length_pos_iff.mp (by omega)
  rw [completeRelayStep, groundRtt_some _ nonempty]
  refine ⟨_, rfl, rfl, by simpa using rtts, ?_, ?_⟩ <;>
    simp only [List.length_append, List.length_flatten, List.map_replicate, List.length_cons,
      List.length_nil, List.sum_replicate_nat]
  · omega
  · omega

/-- The pair is a downlink of step `j`. -/
def HasDownlink (lps : List LinksParam) (pair : Int × Int) (j : Nat) : Prop :=
  ∃ lp entry, lps[j]? = some lp ∧ Downlink lp.topo pair entry

lemma present_iff {lps : List LinksParam} {infos : List DownlinkInfo}
    (each : List.Forall₂ (fun lp info => ∀ pair, pair ∈ keys info ↔
      ∃ entry, Downlink lp.topo pair entry) lps infos) (pair : Int × Int) (j : Nat) :
    Present (infos.map keys) pair j ↔ HasDownlink lps pair j := by
  rw [Present, HasDownlink]
  by_cases inside : j < lps.length
  · have inside' : j < infos.length := each.length_eq ▸ inside
    have same := (List.forall₂_iff_get.mp each).2 j inside inside' pair
    simp only [List.get_eq_getElem] at same
    simp [List.getElem?_eq_getElem inside, List.getElem?_eq_getElem inside', same]
  · have outside' : infos.length ≤ j := each.length_eq ▸ Nat.le_of_not_lt inside
    simp [List.getElem?_eq_none (Nat.le_of_not_lt inside), List.getElem?_eq_none outside']

lemma hasDownlink_iff {lps : List LinksParam} {pair : Int × Int} {j : Nat} :
    HasDownlink lps pair j ↔
      ∃ topo entry, (lps.map (·.topo))[j]? = some topo ∧ Downlink topo pair entry := by
  simp [HasDownlink, List.getElem?_map]

/-- The interval of every downlink of step `i`. -/
def PairContacts (lps : List LinksParam) (info : DownlinkInfo) (i : Nat) (topo : List Int) : Prop :=
  ∀ pair entry, Downlink topo pair entry → ∃ s e : Nat,
    get? info pair = some ((s : Int), (e : Int)) ∧ s ≤ i ∧ i < e ∧
      MaximalRun (HasDownlink lps pair) lps.length s e

lemma PairContacts.of_same_topo {lps lps' : List LinksParam} {info : DownlinkInfo} {i : Nat}
    {topo : List Int} (contacts : PairContacts lps info i topo)
    (same : lps'.map (·.topo) = lps.map (·.topo)) : PairContacts lps' info i topo := by
  have lengths : lps'.length = lps.length := by
    simpa using congrArg List.length same
  intro pair entry downlink
  obtain ⟨s, e, found, le, lt, run⟩ := contacts pair entry downlink
  have downlinks : HasDownlink lps' pair = HasDownlink lps pair :=
    funext fun j => propext (by rw [hasDownlink_iff, hasDownlink_iff, same])
  rw [← lengths, ← downlinks] at run
  exact ⟨s, e, found, le, lt, run⟩

/-- The two passes find the contacts of the pairs of every step. -/
lemma downlinkInfos_contacts {lps : List LinksParam} (odd : ∀ lp ∈ lps, lp.topo.length % 2 = 1) :
    ∃ infos, downlinkInfos lps = some infos ∧ infos.length = lps.length ∧
      ∀ k lp, lps[k]? = some lp → ∃ info, infos[k]? = some info ∧
        PairContacts lps info k lp.topo := by
  obtain ⟨raw, collected, pairs⟩ := mapM_spec fun lp h => downlinkInfo_spec (odd lp h)
  have length := pairs.length_eq
  refine ⟨fillEnd 0 (fillStart none 0 raw), by simp [downlinkInfos, collected], ?_,
    fun k lp here => ?_⟩
  · obtain ⟨starts, -⟩ := @fillStart_spec (raw.map keys) [] none raw rfl (.inl ⟨rfl, rfl⟩)
    obtain ⟨ends, -⟩ := @fillEnd_spec (raw.map keys) [] (fillStart none 0 raw) starts.symm
    have both := congrArg List.length (ends.trans starts)
    simpa [length] using both
  · obtain ⟨inside, rfl⟩ := List.getElem?_eq_some_iff.mp here
    have insideRaw : k < raw.length := length ▸ inside
    obtain ⟨info, at', runs⟩ := filled_runs raw (List.getElem?_eq_getElem insideRaw)
    refine ⟨info, at', fun pair entry downlink => ?_⟩
    have named := (List.forall₂_iff_get.mp pairs).2 k inside insideRaw pair
    obtain ⟨s, e, found, le, lt, run⟩ := runs pair (named.mpr ⟨entry, downlink⟩)
    have same : Present (raw.map keys) pair = HasDownlink lps pair :=
      funext fun j => propext (present_iff pairs pair j)
    rw [same, ← length] at run
    exact ⟨s, e, found, le, lt, run⟩

/-- A pair that is gone for one step has two contacts. -/
example : downlinkInfos ([[1, 2, 3], [1], [1, 2, 3]].map fun topo => ⟨topo, [], [], []⟩) =
    some [[((0, 1), (0, 3)), ((2, 3), (0, 1))], [((0, 1), (0, 3))],
      [((0, 1), (0, 3)), ((2, 3), (2, 3))]] := rfl

/-- The fluctuation of the steps of a relay-only trace. -/
lemma addBwFluctRelayOnly_spec (downlinkBw : Rat) {lps : List LinksParam}
    (odd : ∀ lp ∈ lps, lp.topo.length % 2 = 1)
    (bw : ∀ lp ∈ lps, lp.bw.length = lp.topo.length + 3) :
    ∃ infos outs, downlinkInfos lps = some infos ∧
      addBwFluctRelayOnly round lps downlinkBw = some outs ∧ outs.length = lps.length ∧
      ∀ k base, lps[k]? = some base → ∃ info out, infos[k]? = some info ∧
        outs[k]? = some out ∧ PairContacts lps info k base.topo ∧
        RelayFilled round downlinkBw info k base out := by
  obtain ⟨infos, collected, lengthInfos, contacts⟩ := downlinkInfos_contacts odd
  have fill (k : Nat) (info : DownlinkInfo) (base : LinksParam) (at' : infos[k]? = some info)
      (here : lps[k]? = some base) : ∃ out,
        fillRelayStep round downlinkBw (0 + k) info base = some out ∧
          RelayFilled round downlinkBw info k base out := by
    obtain ⟨info', at'', runs⟩ := contacts k base here
    obtain rfl := Option.some.inj (at'.symm.trans at'')
    have listed := List.mem_of_getElem? here
    rw [Nat.zero_add]
    refine fillRelayStep_spec round downlinkBw k (odd _ listed) (bw _ listed) ?_
    intro pair entry downlink
    obtain ⟨s, e, found, -, -, run⟩ := runs pair entry downlink
    exact ⟨s, e, found, Int.ofNat_lt.mpr run.nonempty⟩
  obtain ⟨outs, filled, lengthOuts, entries⟩ := fillRelaySteps_spec round downlinkBw lengthInfos
    fun k info base at' here => (fill k info base at' here).imp fun _ => And.left
  refine ⟨infos, outs, collected, by simp [addBwFluctRelayOnly, collected, filled], lengthOuts,
    fun k base here => ?_⟩
  obtain ⟨info, at', runs⟩ := contacts k base here
  obtain ⟨out, atOut, step⟩ := entries k info base at' here
  obtain ⟨out', step', result⟩ := fill k info base at' here
  obtain rfl := Option.some.inj (step.symm.trans step')
  exact ⟨info, out, at', atOut, runs, result⟩

/-- The fluctuation of a relay-only trace uses the contacts of the pairs. -/
lemma getCompleteRelayOnlyTrace_contacts (r : Rates) (origin : RelayTrace) :
    ∃ infos plain fluct, getCompleteRelayOnlyTrace round r false origin.toTrace = some plain ∧
      getCompleteRelayOnlyTrace round r true origin.toTrace = some fluct ∧
      downlinkInfos plain.linksParams = some infos ∧
      plain.linksParams.length = origin.linksParams.length ∧
      fluct.linksParams.length = origin.linksParams.length ∧
      ∀ i lp, origin.linksParams[i]? = some lp → ∃ info base out,
        infos[i]? = some info ∧ plain.linksParams[i]? = some base ∧
        fluct.linksParams[i]? = some out ∧ Complete lp base ∧
        PairContacts origin.linksParams info i lp.topo ∧
        RelayFilled round r.downlinkBw info i base out := by
  obtain ⟨lps, done, each⟩ := mapM_spec fun lp h =>
    completeRelayStep_spec r (origin.odd lp h) (origin.rtts lp h)
  have length := each.length_eq
  have complete (k : Nat) (inside : k < origin.linksParams.length) (inside' : k < lps.length) :
      Complete origin.linksParams[k] lps[k] := by
    simpa using (List.forall₂_iff_get.mp each).2 k inside inside'
  have sameTopo : origin.linksParams.map (·.topo) = lps.map (·.topo) := by
    refine List.ext_getElem (by simpa using length) fun k inside inside' => ?_
    simp only [List.length_map] at inside inside'
    simpa using (complete k inside inside').topo.symm
  have shapes (base : LinksParam) (listed : base ∈ lps) :
      base.topo.length % 2 = 1 ∧ base.bw.length = base.topo.length + 3 := by
    obtain ⟨k, inside, rfl⟩ := List.getElem_of_mem listed
    have made := complete k (length ▸ inside) inside
    rw [made.bw, made.topo]
    exact ⟨origin.odd _ (List.getElem_mem _), rfl⟩
  obtain ⟨infos, outs, collected, filled, lengthOuts, entries⟩ := addBwFluctRelayOnly_spec round
    r.downlinkBw (fun base h => (shapes base h).1) fun base h => (shapes base h).2
  refine ⟨infos, { origin.toTrace with linksParams := lps },
    { origin.toTrace with linksParams := outs }, ?_, ?_, collected, length.symm,
    lengthOuts.trans length.symm, fun i lp here => ?_⟩
  · simp [getCompleteRelayOnlyTrace, done]
  · simp [getCompleteRelayOnlyTrace, done, filled]
  · obtain ⟨inside, rfl⟩ := List.getElem?_eq_some_iff.mp here
    have base := List.getElem?_eq_getElem (length ▸ inside : i < lps.length)
    have made := complete i inside (length ▸ inside)
    obtain ⟨info, out, at', atOut, runs, result⟩ := entries i _ base
    rw [made.topo] at runs
    exact ⟨info, _, out, at', base, atOut, made, runs.of_same_topo sameTopo, result⟩

/-- Both fluctuations end, take the bandwidth of an access link from its contact, and leave
every other entry as it was. -/
theorem fluctuation_uses_contacts (r : Rates) :
    (∀ origin : OriginTrace, ∃ c plain fluct,
      getCompleteTrace round r false origin.toTrace = some plain ∧
      getCompleteTrace round r true origin.toTrace = some fluct ∧
      completeSteps r 0 ⟨[], [], -2, -2⟩ origin.linksParams = some (c, plain.linksParams) ∧
      plain.linksParams.length = origin.linksParams.length ∧
      fluct.linksParams.length = origin.linksParams.length ∧
      ∀ i lp, origin.linksParams[i]? = some lp → ∃ base out,
        plain.linksParams[i]? = some base ∧ fluct.linksParams[i]? = some out ∧
        Complete lp base ∧ Complete lp out ∧
        AccessFilled round r c origin.linksParams i base out) ∧
    ∀ origin : RelayTrace, ∃ infos plain fluct,
      getCompleteRelayOnlyTrace round r false origin.toTrace = some plain ∧
      getCompleteRelayOnlyTrace round r true origin.toTrace = some fluct ∧
      downlinkInfos plain.linksParams = some infos ∧
      plain.linksParams.length = origin.linksParams.length ∧
      fluct.linksParams.length = origin.linksParams.length ∧
      ∀ i lp, origin.linksParams[i]? = some lp → ∃ info base out,
        infos[i]? = some info ∧ plain.linksParams[i]? = some base ∧
        fluct.linksParams[i]? = some out ∧ Complete lp base ∧ Complete lp out ∧
        PairContacts origin.linksParams info i lp.topo ∧
        RelayFilled round r.downlinkBw info i base out := by
  refine ⟨fun origin => ?_, fun origin => ?_⟩
  · obtain ⟨c, plain, fluct, done, done', steps, length, length', each⟩ :=
      getCompleteTrace_contacts round r origin
    refine ⟨c, plain, fluct, done, done', steps, length, length', fun i lp here => ?_⟩
    obtain ⟨base, out, atBase, atOut, complete, filled⟩ := each i lp here
    exact ⟨base, out, atBase, atOut, complete, filled.complete complete, filled⟩
  · obtain ⟨infos, plain, fluct, done, done', collected, length, length', each⟩ :=
      getCompleteRelayOnlyTrace_contacts round r origin
    refine ⟨infos, plain, fluct, done, done', collected, length, length', fun i lp here => ?_⟩
    obtain ⟨info, base, out, atInfo, atBase, atOut, complete, contacts, filled⟩ := each i lp here
    exact ⟨info, base, out, atInfo, atBase, atOut, complete, filled.complete complete, contacts,
      filled⟩

/-- Over three steps of a relay-only trace the downlink from station 2 to satellite 3 is gone for
the second one. -/
def rejoining : RelayTrace where
  maxMidnodeNum := 3
  totalMidnodeNum := 3
  isls := [(0, 1), (1, 2), (2, 3), (3, -1), (1, -1)]
  linksParams := [⟨[1, 2, 3], [20, 8, 6, 6, 8, 20], [], []⟩, ⟨[1], [20, 8, 8, 20], [], []⟩,
    ⟨[1, 2, 3], [20, 8, 6, 6, 8, 20], [], []⟩]
  steps := by simp
  visited := by simp
  ids := by simp
  rtts := by simp
  odd := by simp

lemma rejoining_contacts :
    MaximalRun (HasDownlink rejoining.linksParams (2, 3)) 3 0 1 ∧
      MaximalRun (HasDownlink rejoining.linksParams (2, 3)) 3 2 3 := by
  have absent : ¬ HasDownlink rejoining.linksParams (2, 3) 1 := by
    rintro ⟨lp, entry, hlp, downlink⟩
    obtain rfl := Option.some.inj hlp
    rcases downlink with ⟨sat, -, hpair, -⟩ | ⟨j, gs, sat, hodd, hgs, -, -, -⟩
    · cases hpair
    · have := (List.getElem?_eq_some_iff.mp hgs).1
      simp at this
      omega
  have present (j : Nat) (topo : rejoining.linksParams[j]?.map (·.topo) = some [1, 2, 3]) :
      HasDownlink rejoining.linksParams (2, 3) j := by
    obtain ⟨lp, hlp, htopo⟩ := Option.map_eq_some_iff.mp topo
    exact ⟨lp, 3, hlp, .inr ⟨1, 2, 3, rfl, by rw [htopo]; rfl, by rw [htopo]; rfl, rfl, rfl⟩⟩
  constructor
  · refine ⟨by decide, by decide, fun i _ h => ?_, .inl rfl, .inr absent⟩
    obtain rfl : i = 0 := by omega
    exact present 0 rfl
  · refine ⟨by decide, by decide, fun i h h' => ?_, .inr absent, .inl rfl⟩
    obtain rfl : i = 2 := by omega
    exact present 2 rfl

/-- So its bandwidth there follows two contacts of one step each. -/
theorem fluctuation_uses_contacts_rejoining : ∃ (first last : DownlinkInfo) (fluct : Trace),
    getCompleteRelayOnlyTrace id {} true rejoining.toTrace = some fluct ∧
    fluct.linksParams.length = 3 ∧
    get? first (2, 3) = some (0, 1) ∧ get? last (2, 3) = some (2, 3) ∧
    ∃ base out, fluct.linksParams[2]? = some out ∧ RelayFilled id 20 last 2 base out := by
  obtain ⟨-, relay⟩ := fluctuation_uses_contacts id {}
  obtain ⟨infos, plain, fluct, -, hfluct, -, -, length, each⟩ := relay rejoining
  obtain ⟨first, -, -, -, -, -, -, -, contacts, -⟩ := each 0 _ rfl
  obtain ⟨last, base, out, -, -, hout, -, -, contacts', filled⟩ := each 2 _ rfl
  have downlink : Downlink [1, 2, 3] (2, 3) 3 := .inr ⟨1, 2, 3, rfl, rfl, rfl, rfl, rfl⟩
  obtain ⟨s, e, found, hs, he, run⟩ := contacts (2, 3) 3 downlink
  obtain ⟨s', e', found', hs', he', run'⟩ := contacts' (2, 3) 3 downlink
  obtain ⟨rfl, rfl⟩ := run.unique rejoining_contacts.1 hs he le_rfl Nat.zero_lt_one
  obtain ⟨rfl, rfl⟩ := run'.unique rejoining_contacts.2 hs' he' le_rfl (Nat.lt_succ_self 2)
  exact ⟨first, last, fluct, hfluct, length, found, found', base, out, hout, filled⟩

end ContactRuns
