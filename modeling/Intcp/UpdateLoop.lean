import Intcp.NodeEffects
import Mathlib.Data.List.Chain

/-!
# The update thread

`TransUpdateLoop` asks `check` when `update` is due, and sleeps until then; other threads call
the session in between. Whatever they call, no pass flushes twice in a millisecond, and while
the clock goes on every pass flushes that does not find the millisecond of the last flush.
-/

namespace UpdateLoop

open StepRuns Words BlockCache TransControl DataPlane InterestPlane NodeCore CallRules NodeEffects

universe u
variable {F : Type u} {nameLen : Nat} (P : Platform F)

/-- A pass of `TransUpdateLoop`: the reading it compares with, and what `usleep` gets if it
sleeps. -/
structure Pass (F : Type u) (nameLen : Nat) where
  cb : IntcpTransCB F nameLen
  now : UInt32
  slept : Option UInt32

/-- The readings on either side of the lock are only logged. -/
def transUpdatePass (cb : IntcpTransCB F nameLen) : Option (Pass F nameLen) :=
  let checked := check P (tick (tick cb))
  let updateTime := checked.1
  let now := getMillisec P checked.2
  let cb := tick checked.2
  if updateTime ≤ now then (update P cb).map fun cb => ⟨cb, now, none⟩
  else some ⟨cb, now, some ((updateTime - now) * 1000)⟩

inductive Event (nameLen : Nat) where
  | pass
  | call (op : Op nameLen)

/-- `flush` and `update` are left to the thread. -/
def Outside : Event nameLen → Prop
  | .call .flush => False
  | .call .update => False
  | _ => True

/-- The reading at which `update` flushes in the next pass, if it does. -/
def flushTime (cb : IntcpTransCB F nameLen) : Option UInt32 :=
  let checked := check P (tick (tick cb))
  if checked.1 ≤ getMillisec P checked.2 ∧ Due P (tick checked.2) then
    some (getMillisec P (tick checked.2))
  else none

/-- A session, with the readings at which it was flushed. -/
structure Watched (F : Type u) (nameLen : Nat) where
  cb : IntcpTransCB F nameLen
  flushes : List UInt32

def step (event : Event nameLen) (w : Watched F nameLen) : Option (Watched F nameLen) :=
  match event with
  | .pass =>
    if w.cb.state = -1 then some w
    else (transUpdatePass P w.cb).map fun pass =>
      ⟨pass.cb, w.flushes ++ (flushTime P w.cb).toList⟩
  | .call op => (op.step P w.cb).map fun cb => ⟨cb, w.flushes⟩

section Timer

variable {P} {cb cb' : IntcpTransCB F nameLen}

@[simp] lemma updated_tick : (tick cb).updated = cb.updated := rfl

@[simp] lemma nextFlushTs_tick : (tick cb).nextFlushTs = cb.nextFlushTs := rfl

@[simp] lemma reads_tick : (tick cb).reads = cb.reads + 1 := rfl

lemma reads_flushSegs (fl : Flushing F nameLen) (segs : List IntcpSeg) :
    fl.cb.reads ≤ (flushSegs P fl segs).2.cb.reads := by
  induction segs generalizing fl with
  | nil => exact Nat.le_refl _
  | cons seg rest ih =>
    rw [flushSegs]
    split
    · exact Nat.le_refl _
    · obtain ⟨limit, out, hcb⟩ := flushSeg_cb (P := P) fl seg
      have later := ih (flushSeg P fl seg)
      rw [hcb] at later
      exact Nat.le_trans (Nat.le_succ _) later

lemma reads_flushData (cb : IntcpTransCB F nameLen) : cb.reads ≤ (flushData P cb).reads := by
  simp only [flushData, output_requester, settleLimit]
  generalize hstart : Flushing.mk _ [] = fl
  have hreads : fl.cb.reads = cb.reads + 1 := by
    rw [← hstart]
    rfl
  exact Nat.le_trans (by omega) (reads_flushSegs (P := P) fl (tick cb).sndQueue)

/-- Nothing but `update` touches the timer. -/
structure Timed (cb cb' : IntcpTransCB F nameLen) : Prop where
  updated : cb'.updated = cb.updated
  nextFlushTs : cb'.nextFlushTs = cb.nextFlushTs
  reads : cb.reads ≤ cb'.reads

lemma timed_effects {tagged : Prop} (effects : Effects P tagged False cb cb') : Timed cb cb' := by
  refine effects.keep (Timed cb) ?_ ⟨rfl, rfl, Nat.le_refl _⟩
  intro now next h effect
  cases effect with
  | quiet same =>
    exact ⟨same.updated.trans h.updated, same.nextFlushTs.trans h.nextFlushTs,
      Nat.le_trans h.reads same.reads⟩
  | read name s e => exact ⟨h.updated, h.nextFlushTs, h.reads⟩
  | insert name s e dataBuf hcache => exact ⟨h.updated, h.nextFlushTs, h.reads⟩
  | queue segs push => exact ⟨h.updated, h.nextFlushTs, h.reads⟩
  | ask s e =>
    rw [outputInt_eq]
    exact ⟨h.updated, h.nextFlushTs, Nat.le_succ_of_le h.reads⟩
  | send =>
    have hreads := reads_flushData (P := P) now
    obtain ⟨limit, n, sn, bytes, queue, out, hframe⟩ := flushData_frame (P := P) now
    rw [hframe] at hreads ⊢
    exact ⟨h.updated, h.nextFlushTs, Nat.le_trans h.reads hreads⟩
  | timer updated next free => exact free.elim

lemma timed_call {op : Op nameLen} (outside : Outside (.call op)) (h : op.step P cb = some cb') :
    Timed cb cb' := by
  have free : op = .update → False := by
    rintro rfl
    exact outside
  have tagless : False → PushCall op := False.elim
  exact timed_effects (step_effects tagless free h)

lemma ready_timer (cb : IntcpTransCB F nameLen) :
    (ready P cb).updated = (if cb.updated = 0 then 1 else cb.updated) ∧
      (ready P cb).nextFlushTs = (if cb.updated = 0 then getMillisec P cb else cb.nextFlushTs) ∧
      cb.reads < (ready P cb).reads := by
  have hreset : ∃ n, cb.reads < n ∧ (resetStat P (tick cb) (getMillisec P cb)).reads = n ∧
      (resetStat P (tick cb) (getMillisec P cb)).updated = cb.updated ∧
      (resetStat P (tick cb) (getMillisec P cb)).nextFlushTs = cb.nextFlushTs := by
    rw [resetStat]
    split
    · exact ⟨cb.reads + 2, by omega, rfl, rfl, rfl⟩
    · exact ⟨cb.reads + 1, by omega, rfl, rfl, rfl⟩
  obtain ⟨n, hn, hreads, hupdated, hnext⟩ := hreset
  rw [ready, firstUpdate, hupdated]
  split
  · exact ⟨rfl, rfl, hreads.symm ▸ hn⟩
  · exact ⟨hupdated, hnext, hreads.symm ▸ hn⟩

lemma due_iff (started : cb.updated ≠ 0) : Due P cb ↔
    itimediff (getMillisec P cb) cb.nextFlushTs ≥ 0 ∨
      itimediff (getMillisec P cb) cb.nextFlushTs < -10000 := by
  obtain ⟨-, hnext, -⟩ := ready_timer (P := P) cb
  rw [Due, hnext, if_neg started, ge_iff_le, Int32.le_iff_toInt_le, Int32.lt_iff_toInt_lt]
  exact Iff.rfl

lemma due_first (first : cb.updated = 0) : Due P cb := by
  obtain ⟨-, hnext, -⟩ := ready_timer (P := P) cb
  rw [Due, hnext, if_pos first, UInt32.sub_self]
  exact .inl (by decide)

/-- An `update` before its time leaves the timer alone. -/
lemma update_idle (idle : ¬ Due P cb) (h : update P cb = some cb') : Timed cb cb' := by
  have started : cb.updated ≠ 0 := fun first => idle (due_first first)
  obtain ⟨hupdated, hnext, hreads⟩ := ready_timer (P := P) cb
  rw [if_neg started] at hupdated hnext
  have hupdate : update P cb = some (ready P cb) := if_neg idle
  rw [hupdate] at h
  cases h
  exact ⟨hupdated, hnext, Nat.le_of_lt hreads⟩

/-- An `update` that flushes sets the timer to the next millisecond. -/
lemma update_due (due : Due P cb) (h : update P cb = some cb') :
    cb'.updated ≠ 0 ∧ cb'.nextFlushTs = getMillisec P cb + 1 ∧ cb.reads < cb'.reads := by
  obtain ⟨hupdated, -, hreads⟩ := ready_timer (P := P) cb
  have started : (ready P cb).updated ≠ 0 := by
    rw [hupdated]
    split
    · decide
    · assumption
  let current := getMillisec P cb
  let slap := (current - (ready P cb).nextFlushTs).toInt32
  have hupdate : update P cb = (flush P (ready P cb)).map fun sent =>
      { sent with nextFlushTs :=
        if slap.toUInt32 ≥ intcpUpdateInterval ∨ slap < -10000 then current + intcpUpdateInterval
        else sent.nextFlushTs + intcpUpdateInterval } := if_pos due
  rw [hupdate] at h
  obtain ⟨sent, hsent, rfl⟩ := Option.map_eq_some_iff.mp h
  have effects : Effects P False False (ready P cb) sent := effects_flush .refl hsent
  have timed := timed_effects effects
  refine ⟨timed.updated ▸ started, ?_, Nat.lt_of_lt_of_le hreads timed.reads⟩
  simp only
  split
  · rfl
  · rename_i soon
    -- the timer has run out in this very millisecond
    have same : current = (ready P cb).nextFlushTs := by
      have hlt : (current - (ready P cb).nextFlushTs).toNat < 1 := by
        have hshort := (not_or.mp soon).1
        rw [UInt32.toUInt32_toInt32, ge_iff_le, UInt32.not_le, UInt32.lt_iff_toNat_lt] at hshort
        exact hshort
      have hzero : current - (ready P cb).nextFlushTs = 0 := UInt32.toNat_inj.mp (by
        rw [Nat.lt_one_iff.mp hlt]
        rfl)
      rw [UInt32.sub_eq_iff_eq_add.mp hzero, UInt32.zero_add]
    rw [timed.nextFlushTs, ← same]
    rfl

lemma check_tick (cb : IntcpTransCB F nameLen) : (check P cb).2 = tick cb := by
  rw [check]
  split
  · rfl
  · split <;> rfl

end Timer

section Pass

variable {P} {cb : IntcpTransCB F nameLen} {pass : Pass F nameLen}

/-- The session as `update` finds it, after the four readings before. -/
def atUpdate (cb : IntcpTransCB F nameLen) : IntcpTransCB F nameLen := tick (tick (tick (tick cb)))

@[simp] lemma updated_atUpdate : (atUpdate cb).updated = cb.updated := by
  simp only [atUpdate, updated_tick]

@[simp] lemma nextFlushTs_atUpdate : (atUpdate cb).nextFlushTs = cb.nextFlushTs := by
  simp only [atUpdate, nextFlushTs_tick]

@[simp] lemma reads_atUpdate : (atUpdate cb).reads = cb.reads + 4 := by
  simp only [atUpdate, reads_tick]

lemma reading_atUpdate : getMillisec P (atUpdate cb) = P.clock (cb.reads + 4) :=
  congrArg P.clock reads_atUpdate

lemma timed_atUpdate : Timed cb (atUpdate cb) :=
  ⟨updated_atUpdate, nextFlushTs_atUpdate, by simp⟩

/-- What `check` has answered, when the pass compares it with the clock. -/
def checked (P : Platform F) (cb : IntcpTransCB F nameLen) : UInt32 := (check P (tick (tick cb))).1

lemma reading_compared : getMillisec P (check P (tick (tick cb))).2 = P.clock (cb.reads + 3) := by
  rw [check_tick, getMillisec, reads_tick, reads_tick, reads_tick]

lemma tick_compared : tick (check P (tick (tick cb))).2 = atUpdate cb := by
  rw [check_tick, atUpdate]

lemma pass_called (called : checked P cb ≤ P.clock (cb.reads + 3))
    (h : transUpdatePass P cb = some pass) :
    update P (atUpdate cb) = some pass.cb ∧ pass.slept = none := by
  have hupdated : (update P (atUpdate cb)).map (fun cb' =>
      (⟨cb', P.clock (cb.reads + 3), none⟩ : Pass F nameLen)) = some pass := by
    rw [← h, transUpdatePass, reading_compared, tick_compared]
    exact (if_pos called).symm
  obtain ⟨cb', hcb, rfl⟩ := Option.map_eq_some_iff.mp hupdated
  exact ⟨hcb, rfl⟩

lemma pass_waits (early : ¬ checked P cb ≤ P.clock (cb.reads + 3)) :
    transUpdatePass P cb = some ⟨atUpdate cb, P.clock (cb.reads + 3),
      some ((checked P cb - P.clock (cb.reads + 3)) * 1000)⟩ := by
  rw [transUpdatePass, reading_compared, tick_compared]
  exact if_neg early

lemma flushTime_eq (cb : IntcpTransCB F nameLen) : flushTime P cb =
    if checked P cb ≤ P.clock (cb.reads + 3) ∧ Due P (atUpdate cb) then
      some (P.clock (cb.reads + 4)) else none := by
  rw [flushTime, reading_compared, tick_compared, reading_atUpdate]
  rfl

/-- A pass that does not flush, whether it calls `update` or not. -/
lemma pass_idle (quiet : flushTime P cb = none) (h : transUpdatePass P cb = some pass) :
    Timed cb pass.cb := by
  have before : Timed cb (atUpdate cb) := timed_atUpdate
  by_cases called : checked P cb ≤ P.clock (cb.reads + 3)
  · have idle : ¬ Due P (atUpdate cb) := by
      intro due
      rw [flushTime_eq, if_pos ⟨called, due⟩] at quiet
      cases quiet
    have after := update_idle idle (pass_called called h).1
    exact ⟨after.updated.trans before.updated, after.nextFlushTs.trans before.nextFlushTs,
      Nat.le_trans before.reads after.reads⟩
  · rw [pass_waits called] at h
    cases h
    exact before

lemma pass_flush {t : UInt32} (ht : flushTime P cb = some t) (h : transUpdatePass P cb = some pass) :
    Due P (atUpdate cb) ∧ P.clock (cb.reads + 4) = t ∧ pass.cb.updated ≠ 0 ∧
      pass.cb.nextFlushTs = t + 1 ∧ cb.reads + 4 < pass.cb.reads ∧ pass.slept = none := by
  rw [flushTime_eq] at ht
  split at ht
  · rename_i due
    obtain ⟨hupdate, awake⟩ := pass_called due.1 h
    obtain ⟨started, hnext, hreads⟩ := update_due due.2 hupdate
    rw [reading_atUpdate] at hnext
    rw [reads_atUpdate] at hreads
    cases ht
    exact ⟨due.2, rfl, started, hnext, hreads, awake⟩
  · cases ht

end Pass

/-- Where the timer that a flush at `r` has set lets the next one come: not in the same
millisecond, nor where the clock has gone back by less than ten seconds. -/
def Late (r t : UInt32) : Prop :=
  itimediff t (r + 1) ≥ 0 ∨ itimediff t (r + 1) < -10000

/-- A clock that never goes back, and stays ten seconds away from where it starts anew. -/
structure Steady (P : Platform F) : Prop where
  onward : ∀ i j, i ≤ j → P.clock i ≤ P.clock j
  below : ∀ i, (P.clock i).toNat < 2 ^ 32 - 10000

lemma toNat_next {r : UInt32} (below : r.toNat < 2 ^ 32 - 10000) : (r + 1).toNat = r.toNat + 1 := by
  have hone : (1 : UInt32).toNat = 1 := rfl
  rw [toNat_add_small (by omega), hone]

lemma late_iff {r t : UInt32} (after : r ≤ t) (below : t.toNat < 2 ^ 32 - 10000) :
    Late r t ↔ r < t := by
  have hafter := UInt32.le_iff_toNat_le.mp after
  have hnext : (r + 1).toNat = r.toNat + 1 := toNat_next (by omega)
  rw [Late, UInt32.lt_iff_toNat_lt, itimediff_eq]
  by_cases later : r.toNat < t.toNat
  · have hsub : (t - (r + 1)).toNat = t.toNat - (r.toNat + 1) := by
      rw [toNat_sub_of_le (UInt32.le_iff_toNat_le.mpr (by omega)), hnext]
    rw [hsub]
    split <;> omega
  · have hsub : (t - (r + 1)).toNat = 2 ^ 32 - 1 := by
      rw [UInt32.toNat_sub, hnext]
      omega
    rw [hsub]
    split <;> omega

lemma next_le {r t : UInt32} (h : r < t) (below : t.toNat < 2 ^ 32 - 10000) : r + 1 ≤ t := by
  have hlt := UInt32.lt_iff_toNat_lt.mp h
  rw [UInt32.le_iff_toNat_le, toNat_next (by omega)]
  omega

/-- The flushes so far, and the timer that the last of them has left. -/
structure Paced (w : Watched F nameLen) : Prop where
  apart : w.flushes.IsChain fun r t => Late r t ∧ (Steady P → r < t)
  timer : (w.cb.updated = 0 ∧ w.flushes = []) ∨ (w.cb.updated ≠ 0 ∧ ∃ before r i,
    w.flushes = before ++ [r] ∧ w.cb.nextFlushTs = r + 1 ∧ i < w.cb.reads ∧ P.clock i = r)

variable {P}

lemma Paced.keep {w : Watched F nameLen} (h : Paced P w) {cb : IntcpTransCB F nameLen}
    (timed : Timed w.cb cb) : Paced P ⟨cb, w.flushes⟩ := by
  refine ⟨h.apart, ?_⟩
  rcases h.timer with ⟨first, noFlush⟩ | ⟨started, before, r, i, hflushes, hnext, hi, hr⟩
  · exact .inl ⟨timed.updated.trans first, noFlush⟩
  · exact .inr ⟨timed.updated ▸ started, before, r, i, hflushes, timed.nextFlushTs.trans hnext,
      Nat.lt_of_lt_of_le hi timed.reads, hr⟩

lemma Paced.pass {w : Watched F nameLen} (h : Paced P w) {pass : Pass F nameLen}
    (hpass : transUpdatePass P w.cb = some pass) :
    Paced P ⟨pass.cb, w.flushes ++ (flushTime P w.cb).toList⟩ := by
  cases htime : flushTime P w.cb with
  | none =>
    rw [Option.toList_none, List.append_nil]
    exact h.keep (pass_idle htime hpass)
  | some t =>
    obtain ⟨due, hclock, started, hnext, hreads, -⟩ := pass_flush htime hpass
    refine ⟨List.isChain_append.mpr ⟨h.apart, .singleton t, ?_⟩,
      .inr ⟨started, w.flushes, t, _, rfl, hnext, hreads, hclock⟩⟩
    intro r hr t' ht'
    cases ht'
    rcases h.timer with ⟨-, noFlush⟩ | ⟨running, before, r', i, hflushes, hset, hi, hr'⟩
    · rw [noFlush] at hr
      cases hr
    · rw [hflushes, List.getLast?_concat] at hr
      cases hr
      rw [← updated_atUpdate] at running
      rw [due_iff running, nextFlushTs_atUpdate, reading_atUpdate, hset, hclock] at due
      have late : Late r t := due
      refine ⟨late, fun steady => (late_iff ?_ (hclock ▸ steady.below _)).mp late⟩
      rw [← hr', ← hclock]
      exact steady.onward _ _ (by omega)

/-- When `check` tells to call `update`, in a session that was flushed at `r`. -/
lemma check_started (steady : Steady P) {cb : IntcpTransCB F nameLen} {r : UInt32}
    (started : cb.updated ≠ 0) (hnext : cb.nextFlushTs = r + 1) (passed : r ≤ getMillisec P cb) :
    (check P cb).1 = if r < getMillisec P cb then getMillisec P cb else r + 1 := by
  have late : itimediff (getMillisec P cb) (r + 1) ≥ 0 ∨
      itimediff (getMillisec P cb) (r + 1) < -10000 ↔ r < getMillisec P cb :=
    late_iff passed (steady.below cb.reads)
  rw [check, updated_tick, nextFlushTs_tick, if_neg started, hnext]
  by_cases further : r < getMillisec P cb
  · rw [if_pos (late.mpr further), if_pos further]
  · have same : getMillisec P cb = r :=
      UInt32.le_antisymm (UInt32.not_lt.mp further) passed
    rw [if_neg (mt late.mp further), if_neg further, same, imin]
    exact if_pos (UInt32.le_refl _)

lemma check_first {cb : IntcpTransCB F nameLen} (first : cb.updated = 0) :
    (check P cb).1 = getMillisec P cb := by
  rw [check, updated_tick, if_pos first]

/-- The next pass comes to a flush later than the last one, without sleeping, or returns after it
has slept out the millisecond of the last flush. -/
inductive Passes (P : Platform F) (w : Watched F nameLen) : Prop where
  | flush (t : UInt32) (flushed : flushTime P w.cb = some t) (later : ∀ r ∈ w.flushes.getLast?, r < t)
      (awake : ∀ pass, transUpdatePass P w.cb = some pass → pass.slept = none)
  | sleep (quiet : flushTime P w.cb = none) (pass : Pass F nameLen)
      (returns : transUpdatePass P w.cb = some pass) (short : pass.slept = some 1000)
      (same : w.flushes.getLast? = some pass.now)

/-- A pass in which `update` is called and due flushes. -/
lemma passes_flush {w : Watched F nameLen} (called : checked P w.cb ≤ P.clock (w.cb.reads + 3))
    (due : Due P (atUpdate w.cb)) (later : ∀ r ∈ w.flushes.getLast?, r < P.clock (w.cb.reads + 4)) :
    Passes P w :=
  .flush _ ((flushTime_eq w.cb).trans (if_pos ⟨called, due⟩)) later
    fun _ hpass => (pass_called called hpass).2

section Turn

variable {w : Watched F nameLen} {r : UInt32} (steady : Steady P)
  (last : w.flushes.getLast? = some r)
  (hcheck : checked P w.cb =
    if r < P.clock (w.cb.reads + 2) then P.clock (w.cb.reads + 2) else r + 1)

include steady last hcheck

/-- Past the millisecond of the last flush `update` is called, and due. -/
lemma passes_further (started : w.cb.updated ≠ 0) (hnext : w.cb.nextFlushTs = r + 1)
    (further : r < P.clock (w.cb.reads + 3)) : Passes P w := by
  have called : checked P w.cb ≤ P.clock (w.cb.reads + 3) := by
    rw [hcheck]
    split
    · exact steady.onward _ _ (Nat.le_succ _)
    · exact next_le further (steady.below (w.cb.reads + 3))
  have beyond : r < P.clock (w.cb.reads + 4) :=
    UInt32.lt_of_lt_of_le further (steady.onward _ _ (Nat.le_succ _))
  have due : Due P (atUpdate w.cb) := by
    rw [← updated_atUpdate] at started
    rw [due_iff started, nextFlushTs_atUpdate, reading_atUpdate, hnext]
    exact (late_iff (UInt32.le_of_lt beyond) (steady.below _)).mpr beyond
  refine passes_flush called due fun t ht => ?_
  rw [last] at ht
  cases ht
  exact beyond

/-- Within it the thread sleeps for a millisecond. -/
lemma passes_same (same : P.clock (w.cb.reads + 3) = r) : Passes P w := by
  have asked : ¬ r < P.clock (w.cb.reads + 2) :=
    UInt32.not_lt.mpr (same ▸ steady.onward _ _ (Nat.le_succ _))
  rw [if_neg asked] at hcheck
  have below := steady.below (w.cb.reads + 3)
  rw [same] at below
  have early : ¬ checked P w.cb ≤ P.clock (w.cb.reads + 3) := by
    rw [hcheck, same, UInt32.not_le, UInt32.lt_iff_toNat_lt, toNat_next below]
    omega
  refine .sleep ((flushTime_eq w.cb).trans (if_neg fun h => early h.1)) _ (pass_waits early) ?_
    (same ▸ last)
  simp only [hcheck, same]
  rw [UInt32.add_comm, UInt32.add_sub_cancel]
  rfl

end Turn

lemma Paced.passes {w : Watched F nameLen} (h : Paced P w) (steady : Steady P) :
    Passes P w := by
  have onward : P.clock (w.cb.reads + 2) ≤ P.clock (w.cb.reads + 3) :=
    steady.onward _ _ (Nat.le_succ _)
  have asked : getMillisec P (tick (tick w.cb)) = P.clock (w.cb.reads + 2) := by
    rw [getMillisec, reads_tick, reads_tick]
  rcases h.timer with ⟨first, noFlush⟩ | ⟨started, before, r, i, hflushes, hnext, hi, hr⟩
  · have called : checked P w.cb ≤ P.clock (w.cb.reads + 3) := by
      rw [checked, check_first (by simpa using first), asked]
      exact onward
    refine passes_flush called (due_first (by simpa using first)) ?_
    rw [noFlush]
    exact fun r hr => nomatch hr
  · have passed : r ≤ P.clock (w.cb.reads + 2) := hr ▸ steady.onward _ _ (by omega)
    have last : w.flushes.getLast? = some r := by
      rw [hflushes, List.getLast?_concat]
    have hcheck : checked P w.cb = if r < P.clock (w.cb.reads + 2) then
        P.clock (w.cb.reads + 2) else r + 1 := by
      rw [← asked] at passed ⊢
      exact check_started steady (by simpa using started) (by simpa using hnext) passed
    by_cases further : r < P.clock (w.cb.reads + 3)
    · exact passes_further steady last hcheck started hnext further
    · have same : P.clock (w.cb.reads + 3) = r :=
        UInt32.le_antisymm (UInt32.not_lt.mp further) (UInt32.le_trans passed onward)
      exact passes_same steady last hcheck same

lemma step_paced {w w' : Watched F nameLen} (h : Paced P w) {event : Event nameLen}
    (outside : Outside event) (hstep : step P event w = some w') : Paced P w' := by
  cases event with
  | pass =>
    simp only [step] at hstep
    split at hstep
    · cases hstep
      exact h
    · obtain ⟨pass, hpass, rfl⟩ := Option.map_eq_some_iff.mp hstep
      exact h.pass hpass
  | call op =>
    obtain ⟨cb, hcb, rfl⟩ := Option.map_eq_some_iff.mp hstep
    exact h.keep (timed_call outside hcb)

/-- However the threads of a session take turns, it is never flushed twice in a row in one
millisecond, nor by a clock that has gone back by less than ten seconds. While the clock goes on,
every pass of the update thread comes to a flush but those that find the millisecond of the last
one, and these sleep for a millisecond and return. -/
theorem run_paced {role : Role} {name : Vector UInt8 nameLen} {cache : Cache nameLen}
    {events : List (Event nameLen)} (outside : ∀ event ∈ events, Outside event)
    {w : Watched F nameLen}
    (hrun : run (step P) ⟨.create P role name cache, []⟩ events = some w) :
    w.flushes.IsChain Late ∧ (Steady P → w.flushes.Pairwise (· < ·) ∧ Passes P w) := by
  have start : Paced P ⟨.create P role name cache, []⟩ := ⟨.nil, .inl ⟨rfl, rfl⟩⟩
  have paced : Paced P w := run_invariant_all (Paced P)
    (fun _ _ _ h outside hstep => step_paced h outside hstep) start outside hrun
  refine ⟨paced.apart.imp fun _ _ => And.left, fun steady => ⟨?_, paced.passes steady⟩⟩
  exact (paced.apart.imp fun _ _ h => h.2 steady).pairwise

/-- Sixteen readings of the clock show the same millisecond, and after a second it stands. -/
def slowClock : Platform Rat := .exact fun n => UInt32.ofNat (min (n / 16) 1000)

lemma steady_slowClock : Steady slowClock where
  onward i j h := by
    change UInt32.ofNat _ ≤ UInt32.ofNat _
    rw [UInt32.le_iff_toNat_le, UInt32.toNat_ofNat_of_lt' (by change _ < 2 ^ 32; omega),
      UInt32.toNat_ofNat_of_lt' (by change _ < 2 ^ 32; omega)]
    omega
  below i := by
    change (UInt32.ofNat _).toNat < _
    rw [UInt32.toNat_ofNat_of_lt' (by change _ < 2 ^ 32; omega)]
    omega

def unwatched : Watched Rat 1 :=
  ⟨.create slowClock .requester #v[122] (Cache.fresh fun _ _ => 0), []⟩

def turns : List (Event 1) := [.pass, .call (.request 0 100), .pass, .pass, .pass]

/-- Two of the four passes flush, and the next one sleeps out the millisecond. -/
theorem run_paced_turns : ∃ w, run (step slowClock) unwatched turns = some w ∧
    w.flushes = [0, 1] ∧ w.flushes.Pairwise (· < ·) ∧
      ∃ pass, transUpdatePass slowClock w.cb = some pass ∧ pass.slept = some 1000 ∧
        Passes slowClock w := by
  have houtcome : ((run (step slowClock) unwatched turns).bind fun w =>
      (transUpdatePass slowClock w.cb).map fun pass => (w.flushes, pass.slept)) =
        some ([0, 1], some 1000) := by
    decide +kernel
  obtain ⟨w, hrun, hpassed⟩ := Option.bind_eq_some_iff.mp houtcome
  obtain ⟨pass, hpass, hends⟩ := Option.map_eq_some_iff.mp hpassed
  obtain ⟨hflushes, hslept⟩ := Prod.mk.inj hends
  have outside : ∀ event ∈ turns, Outside event := by
    intro event hevent
    simp only [turns, List.mem_cons, List.not_mem_nil, or_false] at hevent
    rcases hevent with rfl | rfl | rfl | rfl | rfl <;> exact trivial
  obtain ⟨ordered, passes⟩ := (run_paced outside hrun).2 steady_slowClock
  exact ⟨w, hrun, hflushes, ordered, pass, hpass, hslept, passes⟩

end UpdateLoop
