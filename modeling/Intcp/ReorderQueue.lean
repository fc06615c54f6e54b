import Intcp.DataPlane
import Intcp.FuelledLoop
import Mathlib.Data.List.DropRight

/-!
# The receive queue in a `REORDER` build

With `REORDER` a node that is not a midnode takes from `rcvBuf` what continues the
stream at `rcvNxt`. The loop looks at the two ends of the buffer only: a segment
between two later ones is out of its reach.
-/

namespace ReorderQueue

open FuelledLoop Words TransControl

universe u
variable {F : Type u} {nameLen : Nat}

def intcpWndRcv : UInt32 := 128

def deliver (cb : IntcpTransCB F nameLen) (seg : IntcpSeg) (rest : List IntcpSeg) :
    IntcpTransCB F nameLen :=
  { cb with rcvNxt := seg.rangeEnd, rcvQueue := cb.rcvQueue ++ [seg], rcvBuf := rest }

/-- The body of the loop while `rcvBuf` is not empty. -/
def movePass (cb : IntcpTransCB F nameLen) :
    Pass (IntcpTransCB F nameLen) (IntcpTransCB F nameLen) :=
  match cb.rcvBuf with
  | [] => .leave cb
  | segBegin :: behind =>
    let segEnd := (segBegin :: behind).getLast (List.cons_ne_nil _ _)
    let ahead := (segBegin :: behind).dropLast
    if cb.nodeRole = .midnode then
      .again { cb with rcvQueue := cb.rcvQueue ++ segBegin :: behind, rcvBuf := [] }
    else if cb.rcvQueue.length < intcpWndRcv.toNat then
      if cb.rcvNxt = 0 ∨ cb.rcvNxt = segBegin.rangeStart then .again (deliver cb segBegin behind)
      else if cb.rcvNxt = segEnd.rangeStart then .again (deliver cb segEnd ahead)
      else if cb.rcvNxt > segBegin.rangeStart then .again { cb with rcvBuf := behind }
      else if cb.rcvNxt > segEnd.rangeStart then .again { cb with rcvBuf := ahead }
      else .leave cb
    else .leave cb

def moveToRcvQueue (cb : IntcpTransCB F nameLen) : Option (IntcpTransCB F nameLen) :=
  loop movePass (cb.rcvBuf.length + 1) cb

/-- Each segment starts where the one before it ended, from `s` to `e`. -/
def Follows : UInt32 → List IntcpSeg → UInt32 → Prop
  | s, [], e => s = e
  | s, seg :: rest, e => seg.rangeStart = s ∧ Follows seg.rangeEnd rest e

lemma follows_append {s e : UInt32} {segs more : List IntcpSeg} :
    Follows s (segs ++ more) e ↔ ∃ middle, Follows s segs middle ∧ Follows middle more e := by
  induction segs generalizing s with
  | nil => simp [Follows]
  | cons seg rest ih => simp only [List.cons_append, Follows, ih, and_assoc, exists_and_left]

/-- All that lies on one side of the segment starts no later. -/
def Exposed (buf : List IntcpSeg) (seg : IntcpSeg) : Prop :=
  ∃ front back, buf = front ++ seg :: back ∧
    ((∀ x ∈ front, x.rangeStart ≤ seg.rangeStart) ∨ ∀ x ∈ back, x.rangeStart ≤ seg.rangeStart)

/-- The buffer has segments that start at `m`, and all of them lie between two later ones. -/
def Blocked (buf : List IntcpSeg) (m : UInt32) : Prop :=
  (∃ seg ∈ buf, seg.rangeStart = m) ∧ ∀ seg, seg.rangeStart = m → ¬ Exposed buf seg

/-- A segment that starts below `r`. -/
def older (r : UInt32) (seg : IntcpSeg) : Bool := decide (seg.rangeStart < r)

/-- No segment at that end starts at `r`. -/
def Elsewhere (r : UInt32) (atEnd : Option IntcpSeg) : Prop := ∀ seg ∈ atEnd, seg.rangeStart ≠ r

/-- Which segment of a window continues the stream at `r`, and what stays of the window: the one
in front of which all are older, where the last one does not start at `r`; the last one, where the
first does not start at `r`; or, where neither does and the front that is not older begins beyond
`r`, the one behind which all are older. -/
inductive Takes (r : UInt32) (window : List IntcpSeg) : IntcpSeg → List IntcpSeg → Prop where
  | front {seg : IntcpSeg} {rest : List IntcpSeg}
    (reached : window.dropWhile (older r) = seg :: rest) (now : seg.rangeStart = r)
    (first : window = seg :: rest ∨ Elsewhere r window.getLast?) : Takes r window seg rest
  | back {seg : IntcpSeg} {rest : List IntcpSeg} (last : window = rest ++ [seg])
    (now : seg.rangeStart = r) (head : Elsewhere r window.head?) : Takes r window seg rest
  | behind {later seg : IntcpSeg} {more rest : List IntcpSeg}
    (last : Elsewhere r window.getLast?) (reached : window.dropWhile (older r) = later :: more)
    (beyond : r < later.rangeStart) (behind : (later :: more).rdropWhile (older r) = rest ++ [seg])
    (now : seg.rangeStart = r) : Takes r window seg rest

/-- From the buffer `buf` and the offset `s`, the chain that is taken so leads to `m`, with
`window` left. -/
inductive Leads (buf : List IntcpSeg) (s : UInt32) :
    List IntcpSeg → List IntcpSeg → UInt32 → Prop where
  | here : Leads buf s [] buf s
  | next {segs window rest : List IntcpSeg} {m : UInt32} {seg : IntcpSeg}
    (leads : Leads buf s segs window m) (takes : Takes m window seg rest) :
    Leads buf s (segs ++ [seg]) rest seg.rangeEnd

/-- No chain that is taken and fits into the queue leads to an offset which is out of reach. -/
def Clear (cb : IntcpTransCB F nameLen) : Prop :=
  ∀ segs window m, Leads cb.rcvBuf cb.rcvNxt segs window m →
    cb.rcvQueue.length + segs.length < intcpWndRcv.toNat → ¬ Blocked cb.rcvBuf m

/-- Unless the queue is full, no segment is left that starts at `rcvNxt`. -/
def Drained (cb : IntcpTransCB F nameLen) : Prop :=
  cb.rcvQueue.length < intcpWndRcv.toNat → ∀ seg ∈ cb.rcvBuf, seg.rangeStart ≠ cb.rcvNxt

lemma Takes.mem {r : UInt32} {window rest : List IntcpSeg} {seg : IntcpSeg}
    (takes : Takes r window seg rest) :
    seg ∈ window ∧ seg.rangeStart = r ∧ ∀ x ∈ rest, x ∈ window := by
  cases takes with
  | front reached now _ =>
    have inside : ∀ x ∈ seg :: rest, x ∈ window := fun x hx =>
      (List.dropWhile_suffix _).subset (reached ▸ hx)
    exact ⟨inside seg List.mem_cons_self, now, fun x hx => inside x (List.mem_cons_of_mem _ hx)⟩
  | back last now _ => exact ⟨by simp [last], now, fun x hx => by simp [last, hx]⟩
  | behind _ reached _ behind now =>
    have inside : ∀ x ∈ rest ++ [seg], x ∈ window := fun x hx =>
      (List.dropWhile_suffix _).subset (reached ▸ (List.rdropWhile_prefix _ _).subset (behind ▸ hx))
    exact ⟨inside seg (by simp), now, fun x hx => inside x (List.mem_append_left _ hx)⟩

/-- At most one segment of a window is taken. -/
lemma Takes.unique {r : UInt32} {window rest rest' : List IntcpSeg} {seg seg' : IntcpSeg}
    (first : Takes r window seg rest) (second : Takes r window seg' rest') :
    seg = seg' ∧ rest = rest' := by
  have apart : ∀ {x y : IntcpSeg} {more more' : List IntcpSeg},
      window.dropWhile (older r) = x :: more → x.rangeStart = r →
      window.dropWhile (older r) = y :: more' → ¬ r < y.rangeStart := by
    intro x y more more' hx now hy beyond
    rw [hx] at hy
    rw [← (List.cons.inj hy).1, now] at beyond
    exact UInt32.lt_irrefl r beyond
  have clash : ∀ {x y : IntcpSeg} {more more' : List IntcpSeg},
      window = x :: more ∨ Elsewhere r window.getLast? → x.rangeStart = r → window = more' ++ [y] →
      y.rangeStart = r → ¬ Elsewhere r window.head? := by
    rintro x y more more' (rfl | last) hx hlast hy head
    · exact head x rfl hx
    · exact last y (by rw [hlast, List.getLast?_concat]; rfl) hy
  cases first with
  | front reached now first =>
    cases second with
    | front reached' _ _ => exact List.cons.inj (reached.symm.trans reached')
    | back last' now' head' => exact absurd head' (clash first now last' now')
    | behind _ reached' beyond' _ _ => exact absurd beyond' (apart reached now reached')
  | back last now head =>
    cases second with
    | front _ now' first' => exact absurd head (clash first' now' last now)
    | back last' _ _ =>
      obtain ⟨hrest, hseg⟩ := List.append_inj' (last.symm.trans last') rfl
      exact ⟨(List.cons.inj hseg).1, hrest⟩
    | behind last' _ _ _ _ =>
      exact absurd now (last' seg (by rw [last, List.getLast?_concat]; rfl))
  | behind last reached beyond behind now =>
    cases second with
    | front reached' now' _ => exact absurd beyond (apart reached' now' reached)
    | back last' now' _ =>
      exact absurd now' (last seg' (by rw [last', List.getLast?_concat]; rfl))
    | behind _ reached' _ behind' _ =>
      rw [reached, List.cons.injEq] at reached'
      rw [← reached'.1, ← reached'.2, behind] at behind'
      obtain ⟨hrest, hseg⟩ := List.append_inj' behind' rfl
      exact ⟨(List.cons.inj hseg).1, hrest⟩

lemma Leads.mem {buf segs window : List IntcpSeg} {s m : UInt32}
    (leads : Leads buf s segs window m) : ∀ x ∈ window, x ∈ buf := by
  induction leads with
  | here => exact fun _ h => h
  | next _ takes ih => exact fun x hx => ih x (takes.mem.2.2 x hx)

lemma Leads.follows {buf segs window : List IntcpSeg} {s m : UInt32}
    (leads : Leads buf s segs window m) : Follows s segs m := by
  induction leads with
  | here => rfl
  | next _ takes ih => exact follows_append.mpr ⟨_, ih, takes.mem.2.1, rfl⟩

/-- Chains of one length are one chain. -/
lemma Leads.unique {buf segs segs' window window' : List IntcpSeg} {s m m' : UInt32}
    (first : Leads buf s segs window m) (second : Leads buf s segs' window' m')
    (count : segs.length = segs'.length) : segs = segs' ∧ window = window' ∧ m = m' := by
  induction first generalizing segs' window' m' with
  | here =>
    cases second with
    | here => exact ⟨rfl, rfl, rfl⟩
    | next _ _ => simp at count
  | next leads takes ih =>
    cases second with
    | here => simp at count
    | next leads' takes' =>
      obtain ⟨rfl, rfl, rfl⟩ := ih leads' (by simpa using count)
      obtain ⟨rfl, rfl⟩ := takes.unique takes'
      exact ⟨rfl, rfl, rfl⟩

/-- A longer chain takes a segment where the front of it ends. -/
lemma Leads.goesOn {buf segs window : List IntcpSeg} {s m : UInt32}
    (leads : Leads buf s segs window m) {n : Nat} (shorter : n < segs.length) :
    ∃ front window m seg rest more, front.length = n ∧ Leads buf s front window m ∧
      Takes m window seg rest ∧ segs = front ++ seg :: more := by
  induction leads with
  | here => simp at shorter
  | next leads takes ih =>
    rename_i segs window rest m seg
    rw [List.length_append, List.length_singleton] at shorter
    by_cases hlast : n = segs.length
    · exact ⟨segs, window, m, seg, rest, [], hlast.symm, leads, takes, rfl⟩
    · obtain ⟨front, window', m', seg', rest', more, hcount, hfront, htakes, rfl⟩ :=
        ih (by omega)
      exact ⟨front, window', m', seg', rest', more ++ [seg], hcount, hfront, htakes, by simp⟩

/-- Where one of two chains ends, they both end, or the other one takes a segment. -/
lemma Leads.goesOn_of_shorter {buf segs segs' window window' : List IntcpSeg} {s m m' : UInt32}
    (first : Leads buf s segs window m) (second : Leads buf s segs' window' m')
    (shorter : segs.length < segs'.length) :
    ∃ seg rest, seg ∈ segs' ∧ Takes m window seg rest := by
  obtain ⟨front, _, _, seg, rest, more, hcount, hfront, takes, rfl⟩ := second.goesOn shorter
  obtain ⟨rfl, rfl, rfl⟩ := first.unique hfront hcount.symm
  exact ⟨seg, rest, by simp, takes⟩

/-- From one end of the buffer. -/
def AtEnd (buf : List IntcpSeg) (seg : IntcpSeg) (rest : List IntcpSeg) : Prop :=
  buf = seg :: rest ∨ buf = rest ++ [seg]

/-- A pass delivers the first segment or, if that is not the next one, the last one; else it
discards the first if it is older or, if that comes later, the last one. -/
inductive PassCases (cb : IntcpTransCB F nameLen) : IntcpTransCB F nameLen → Prop where
  | first {seg : IntcpSeg} {rest : List IntcpSeg} (buf : cb.rcvBuf = seg :: rest)
    (now : seg.rangeStart = cb.rcvNxt) : PassCases cb (deliver cb seg rest)
  | last {seg : IntcpSeg} {rest : List IntcpSeg} (buf : cb.rcvBuf = rest ++ [seg])
    (now : seg.rangeStart = cb.rcvNxt) (head : Elsewhere cb.rcvNxt cb.rcvBuf.head?) :
    PassCases cb (deliver cb seg rest)
  | dropFirst {seg : IntcpSeg} {rest : List IntcpSeg} (buf : cb.rcvBuf = seg :: rest)
    (old : seg.rangeStart < cb.rcvNxt) (last : Elsewhere cb.rcvNxt cb.rcvBuf.getLast?) :
    PassCases cb { cb with rcvBuf := rest }
  | dropLast {seg : IntcpSeg} {rest : List IntcpSeg} (buf : cb.rcvBuf = rest ++ [seg])
    (old : seg.rangeStart < cb.rcvNxt) (head : ∀ x ∈ cb.rcvBuf.head?, cb.rcvNxt < x.rangeStart) :
    PassCases cb { cb with rcvBuf := rest }

lemma movePass_cases {cb cb' : IntcpTransCB F nameLen} (ordered : cb.nodeRole ≠ .midnode)
    (next : cb.rcvNxt ≠ 0) (h : movePass cb = .again cb') : PassCases cb cb' := by
  rw [movePass] at h
  split at h
  · cases h
  · rename_i segBegin behind hbuf
    have hends := List.dropLast_concat_getLast (List.cons_ne_nil segBegin behind)
    have hlast : cb.rcvBuf.getLast? =
        some ((segBegin :: behind).getLast (List.cons_ne_nil segBegin behind)) := by
      rw [hbuf, List.getLast?_eq_some_getLast]
    have hhead : cb.rcvBuf.head? = some segBegin := by rw [hbuf, List.head?_cons]
    simp only [if_neg ordered, next, false_or] at h
    split at h
    · split at h
      · rename_i hbegin
        cases h
        exact .first hbuf hbegin.symm
      · rename_i hbegin
        have elsewhere : Elsewhere cb.rcvNxt cb.rcvBuf.head? := by
          intro x hx
          rw [hhead] at hx
          obtain rfl := Option.some.inj hx
          exact fun now => hbegin now.symm
        split at h
        · rename_i hend
          cases h
          exact .last (hbuf.trans hends.symm) hend.symm elsewhere
        · rename_i hend
          split at h
          · rename_i hold
            cases h
            refine .dropFirst hbuf hold ?_
            intro x hx
            rw [hlast] at hx
            obtain rfl := Option.some.inj hx
            exact fun now => hend now.symm
          · rename_i hnew
            split at h
            · rename_i hold
              cases h
              refine .dropLast (hbuf.trans hends.symm) hold ?_
              intro x hx
              rw [hhead] at hx
              obtain rfl := Option.some.inj hx
              exact UInt32.lt_of_le_of_ne (UInt32.not_lt.mp hnew) hbegin
            · cases h
    · cases h

/-- A pass takes a segment from one end and delivers or discards it. -/
lemma movePass_again {cb cb' : IntcpTransCB F nameLen} (ordered : cb.nodeRole ≠ .midnode)
    (next : cb.rcvNxt ≠ 0) (h : movePass cb = .again cb') :
    ∃ seg rest, AtEnd cb.rcvBuf seg rest ∧
      ((seg.rangeStart = cb.rcvNxt ∧ cb' = deliver cb seg rest) ∨
        (seg.rangeStart < cb.rcvNxt ∧ cb' = { cb with rcvBuf := rest })) := by
  cases movePass_cases ordered next h with
  | first buf now => exact ⟨_, _, .inl buf, .inl ⟨now, rfl⟩⟩
  | last buf now _ => exact ⟨_, _, .inr buf, .inl ⟨now, rfl⟩⟩
  | dropFirst buf old _ => exact ⟨_, _, .inl buf, .inr ⟨old, rfl⟩⟩
  | dropLast buf old _ => exact ⟨_, _, .inr buf, .inr ⟨old, rfl⟩⟩

lemma atEnd_cons {segBegin seg : IntcpSeg} {behind rest : List IntcpSeg}
    (h : AtEnd (segBegin :: behind) seg rest) :
    seg = segBegin ∨ seg = (segBegin :: behind).getLast (List.cons_ne_nil _ _) := by
  rcases h with h | h
  · exact Or.inl (List.cons.inj h).1.symm
  · have hlast : (segBegin :: behind).getLast? = some seg := by rw [h, List.getLast?_concat]
    rw [List.getLast?_eq_some_getLast (List.cons_ne_nil _ _)] at hlast
    exact Or.inr (Option.some.inj hlast).symm

/-- The loop ends when the queue is full or both ends of the buffer come later. -/
lemma movePass_leave {cb cb' : IntcpTransCB F nameLen} (ordered : cb.nodeRole ≠ .midnode)
    (h : movePass cb = .leave cb') : cb' = cb ∧
      (cb.rcvQueue.length < intcpWndRcv.toNat →
        ∀ seg rest, AtEnd cb.rcvBuf seg rest → cb.rcvNxt < seg.rangeStart) := by
  rw [movePass] at h
  split at h
  · rename_i hbuf
    cases h
    refine ⟨rfl, fun _ seg rest hend => ?_⟩
    rw [hbuf] at hend
    rcases hend with hend | hend
    · cases hend
    · exact absurd hend (by simp)
  · rename_i segBegin behind hbuf
    simp only [if_neg ordered] at h
    split at h
    · rename_i room
      split at h
      · cases h
      · rename_i hbegin
        split at h
        · cases h
        · rename_i hend
          split at h
          · cases h
          · rename_i hbegin'
            split at h
            · cases h
            · rename_i hend'
              cases h
              refine ⟨rfl, fun _ seg rest hat => ?_⟩
              rw [hbuf] at hat
              rcases atEnd_cons hat with rfl | rfl
              · exact UInt32.lt_of_le_of_ne (UInt32.not_lt.mp hbegin') fun h => hbegin (Or.inr h)
              · exact UInt32.lt_of_le_of_ne (UInt32.not_lt.mp hend') hend
    · rename_i full
      cases h
      exact ⟨rfl, fun room => absurd room full⟩

/-- The loop has come from `first` to `cb`: what is gone from the ends of the buffer starts below
`rcvNxt`, and what was delivered was exposed. -/
structure Moved (first cb : IntcpTransCB F nameLen) : Prop where
  role : cb.nodeRole = first.nodeRole
  next : cb.rcvNxt ≠ 0
  trimmed : ∃ front back, first.rcvBuf = front ++ cb.rcvBuf ++ back ∧
    (∀ x ∈ front, x.rangeStart < cb.rcvNxt) ∧ ∀ x ∈ back, x.rangeStart < cb.rcvNxt
  delivered : ∃ segs, cb.rcvQueue = first.rcvQueue ++ segs ∧ ∀ seg ∈ segs, Exposed first.rcvBuf seg

variable {first cb cb' : IntcpTransCB F nameLen}

/-- The front and the back of the buffer after a segment is gone, with all that is gone starting
below `bound`. -/
lemma trimmed_step {buf rest : List IntcpSeg} {seg : IntcpSeg} {front back : List IntcpSeg}
    {here : List IntcpSeg} {next bound : UInt32} (grows : next ≤ bound)
    (below : seg.rangeStart < bound)
    (hat : AtEnd here seg rest) (hbuf : buf = front ++ here ++ back)
    (hfront : ∀ x ∈ front, x.rangeStart < next) (hback : ∀ x ∈ back, x.rangeStart < next) :
    ∃ front back, buf = front ++ rest ++ back ∧
      (∀ x ∈ front, x.rangeStart < bound) ∧ ∀ x ∈ back, x.rangeStart < bound := by
  have hfront' : ∀ x ∈ front, x.rangeStart < bound :=
    fun x hx => UInt32.lt_of_lt_of_le (hfront x hx) grows
  have hback' : ∀ x ∈ back, x.rangeStart < bound :=
    fun x hx => UInt32.lt_of_lt_of_le (hback x hx) grows
  rcases hat with rfl | rfl
  · refine ⟨front ++ [seg], back, by simp [hbuf], ?_, hback'⟩
    simpa [or_imp, forall_and] using ⟨hfront', below⟩
  · refine ⟨front, seg :: back, by simp [hbuf], hfront', ?_⟩
    exact List.forall_mem_cons.mpr ⟨below, hback'⟩

lemma exposed_atEnd {buf here front back rest : List IntcpSeg} {seg : IntcpSeg} {next : UInt32}
    (hat : AtEnd here seg rest) (hbuf : buf = front ++ here ++ back) (now : next ≤ seg.rangeStart)
    (hfront : ∀ x ∈ front, x.rangeStart < next) (hback : ∀ x ∈ back, x.rangeStart < next) :
    Exposed buf seg := by
  have older : ∀ x : IntcpSeg, x.rangeStart < next → x.rangeStart ≤ seg.rangeStart :=
    fun x hx => UInt32.le_trans (UInt32.le_of_lt hx) now
  rcases hat with rfl | rfl
  · exact ⟨front, rest ++ back, by simp [hbuf], Or.inl fun x hx => older x (hfront x hx)⟩
  · exact ⟨front ++ rest, back, by simp [hbuf], Or.inr fun x hx => older x (hback x hx)⟩

lemma Moved.pass (moved : Moved first cb) (ordered : first.nodeRole ≠ .midnode)
    (proper : ∀ seg ∈ first.rcvBuf, seg.rangeStart < seg.rangeEnd) (h : movePass cb = .again cb') :
    Moved first cb' ∧ cb'.rcvBuf.length < cb.rcvBuf.length := by
  obtain ⟨front, back, hbuf, hfront, hback⟩ := moved.trimmed
  obtain ⟨segs, hqueue, hexposed⟩ := moved.delivered
  obtain ⟨seg, rest, hat, hcase⟩ := movePass_again (moved.role ▸ ordered) moved.next h
  have hmem : seg ∈ first.rcvBuf := by
    rcases hat with hat | hat <;> simp [hbuf, hat]
  have hlength : rest.length < cb.rcvBuf.length := by
    rcases hat with hat | hat <;> simp [hat]
  rcases hcase with ⟨hnow, rfl⟩ | ⟨hold, rfl⟩
  · have hgrows := proper seg hmem
    refine ⟨⟨moved.role, ?_, ?_, ?_⟩, hlength⟩
    · have hpos : seg.rangeEnd ≠ 0 := fun h => UInt32.not_lt_zero (h ▸ hgrows)
      exact hpos
    · exact trimmed_step (hnow ▸ UInt32.le_of_lt hgrows) hgrows hat hbuf hfront hback
    · refine ⟨segs ++ [seg], ?_, ?_⟩
      · rw [deliver, hqueue, List.append_assoc]
      · intro x hx
        rcases List.mem_append.mp hx with hx | hx
        · exact hexposed x hx
        · rw [List.mem_singleton.mp hx]
          exact exposed_atEnd hat hbuf (UInt32.le_of_eq hnow.symm) hfront hback
  · refine ⟨⟨moved.role, moved.next, ?_, segs, hqueue, hexposed⟩, hlength⟩
    exact trimmed_step (UInt32.le_refl _) hold hat hbuf hfront hback

/-- Since the last delivery the loop has taken older segments off the front of the window, where
its last one does not start at `r`, and off the back only once the front came later. -/
def Pending (r : UInt32) (window buf : List IntcpSeg) : Prop :=
  buf = window ∨ Elsewhere r window.getLast? ∧ ∃ front back, window = front ++ (buf ++ back) ∧
    (∀ x ∈ front, older r x = true) ∧ (∀ x ∈ back, older r x = true) ∧
    (back = [] ∨ ∃ x ∈ buf.head?, r < x.rangeStart)

lemma older_false {r : UInt32} {seg : IntcpSeg} (notBefore : r ≤ seg.rangeStart) :
    ¬ older r seg = true := by
  rw [older, decide_eq_true_eq, UInt32.not_lt]
  exact notBefore

/-- The segment that a pass delivers is the one that the window gives. -/
lemma Pending.takes {r : UInt32} {window buf rest : List IntcpSeg} {seg : IntcpSeg}
    (pending : Pending r window buf) (now : seg.rangeStart = r)
    (pass : buf = seg :: rest ∨ buf = rest ++ [seg] ∧ Elsewhere r buf.head?) :
    Takes r window seg rest := by
  have fresh : ¬ older r seg = true := older_false (UInt32.le_of_eq now.symm)
  rcases pending with rfl | ⟨elsewhere, front, back, rfl, hfront, hback, stage⟩
  · rcases pass with rfl | ⟨last, head⟩
    · exact .front (List.dropWhile_cons_of_neg fresh) now (.inl rfl)
    · exact .back last now head
  · have reached : (front ++ (buf ++ back)).dropWhile (older r) = (buf ++ back).dropWhile (older r) :=
      List.dropWhile_append_of_pos hfront
    rcases pass with rfl | ⟨rfl, head⟩
    · rcases stage with rfl | ⟨x, hx, beyond⟩
      · rw [List.append_nil] at reached elsewhere ⊢
        exact .front (reached.trans (List.dropWhile_cons_of_neg fresh)) now (.inr elsewhere)
      · rw [List.head?_cons] at hx
        cases hx
        exact absurd (now ▸ beyond) (UInt32.lt_irrefl r)
    · rcases stage with rfl | ⟨x, hx, beyond⟩
      · refine absurd now (elsewhere seg ?_)
        rw [List.append_nil, ← List.append_assoc, List.getLast?_concat]
        rfl
      · obtain ⟨more, hmore⟩ : ∃ more, rest ++ [seg] = x :: more := by
          cases hcons : rest ++ [seg] with
          | nil => simp at hcons
          | cons y more =>
            rw [hcons, List.head?_cons] at hx
            cases hx
            exact ⟨more, rfl⟩
        have ahead : (rest ++ [seg] ++ back).dropWhile (older r) = x :: (more ++ back) := by
          rw [hmore, List.cons_append,
            List.dropWhile_cons_of_neg (older_false (UInt32.le_of_lt beyond))]
        have behind : (x :: (more ++ back)).rdropWhile (older r) = rest ++ [seg] := by
          rw [← List.cons_append, ← hmore, List.rdropWhile, List.reverse_append,
            List.dropWhile_append_of_pos (by simpa using hback), ← List.rdropWhile,
            List.rdropWhile_concat_neg _ _ _ fresh]
        exact .behind elsewhere (reached.trans ahead) beyond behind now

/-- What is discarded leaves the window as it was. -/
lemma Pending.drop {r : UInt32} {window buf rest : List IntcpSeg} {seg : IntcpSeg}
    (pending : Pending r window buf) (old : seg.rangeStart < r)
    (pass : (buf = seg :: rest ∧ Elsewhere r buf.getLast?) ∨
      (buf = rest ++ [seg] ∧ ∀ x ∈ buf.head?, r < x.rangeStart)) : Pending r window rest := by
  have isOld : older r seg = true := decide_eq_true old
  rcases pass with ⟨rfl, last⟩ | ⟨rfl, head⟩
  · rcases pending with rfl | ⟨elsewhere, front, back, rfl, hfront, hback, stage⟩
    · exact .inr ⟨last, [seg], [], by simp, by simpa using isOld, nofun, .inl rfl⟩
    · rcases stage with rfl | ⟨x, hx, beyond⟩
      · refine .inr ⟨elsewhere, front ++ [seg], [], by simp, ?_, nofun, .inl rfl⟩
        simpa [or_imp, forall_and, isOld] using hfront
      · rw [List.head?_cons] at hx
        cases hx
        exact absurd (UInt32.lt_trans beyond old) (UInt32.lt_irrefl r)
  · have ahead : ∃ x ∈ rest.head?, r < x.rangeStart := by
      cases rest with
      | nil => exact absurd (UInt32.lt_trans (head seg rfl) old) (UInt32.lt_irrefl r)
      | cons x more => exact ⟨x, rfl, head x rfl⟩
    rcases pending with rfl | ⟨elsewhere, front, back, rfl, hfront, hback, stage⟩
    · refine .inr ⟨?_, [], [seg], by simp, nofun, by simpa using isOld, .inr ahead⟩
      intro x hx
      rw [List.getLast?_concat] at hx
      cases hx
      exact UInt32.ne_of_lt old
    · refine .inr ⟨elsewhere, front, seg :: back, by simp, hfront, ?_, .inr ahead⟩
      exact List.forall_mem_cons.mpr ⟨isOld, hback⟩

/-- What the loop has delivered is the chain that the buffer gives. -/
def Chained (first cb : IntcpTransCB F nameLen) : Prop :=
  ∃ segs window, cb.rcvQueue = first.rcvQueue ++ segs ∧
    Leads first.rcvBuf first.rcvNxt segs window cb.rcvNxt ∧ Pending cb.rcvNxt window cb.rcvBuf

lemma Chained.pass (chained : Chained first cb) (ordered : cb.nodeRole ≠ .midnode)
    (next : cb.rcvNxt ≠ 0) (h : movePass cb = .again cb') : Chained first cb' := by
  obtain ⟨segs, window, hqueue, leads, pending⟩ := chained
  have delivered : ∀ {seg rest}, Takes cb.rcvNxt window seg rest →
      Chained first (deliver cb seg rest) := fun takes =>
    ⟨_, _, by rw [deliver, hqueue, List.append_assoc], leads.next takes, .inl rfl⟩
  cases movePass_cases ordered next h with
  | first buf now => exact delivered (pending.takes now (.inl buf))
  | last buf now head => exact delivered (pending.takes now (.inr ⟨buf, head⟩))
  | dropFirst buf old last => exact ⟨segs, window, hqueue, leads, pending.drop old (.inl ⟨buf, last⟩)⟩
  | dropLast buf old head => exact ⟨segs, window, hqueue, leads, pending.drop old (.inr ⟨buf, head⟩)⟩

/-- A segment of the buffer that does not start below `rcvNxt` is still there. -/
lemma Moved.remains (moved : Moved first cb) {seg : IntcpSeg} (mem : seg ∈ first.rcvBuf)
    (later : cb.rcvNxt ≤ seg.rangeStart) : seg ∈ cb.rcvBuf := by
  obtain ⟨front, back, hbuf, hfront, hback⟩ := moved.trimmed
  rw [hbuf, List.mem_append, List.mem_append] at mem
  rcases mem with (mem | mem) | mem
  · exact absurd (hfront seg mem) (UInt32.not_lt.mpr later)
  · exact mem
  · exact absurd (hback seg mem) (UInt32.not_lt.mpr later)

lemma mem_before {α : Type} {front tail before after : List α} {x y : α}
    (split : before ++ x :: after = front ++ y :: tail) (behind : x ∉ front) (other : x ≠ y) :
    y ∈ before := by
  rcases List.append_eq_append_iff.mp split with ⟨more, hfront, hrest⟩ | ⟨more, hbefore, hrest⟩
  · cases more with
    | nil => exact absurd (List.cons.inj hrest).1 other
    | cons z more =>
      rw [← (List.cons.inj hrest).1] at hfront
      exact absurd (by simp [hfront]) behind
  · cases more with
    | nil => exact absurd (List.cons.inj hrest).1.symm other
    | cons z more =>
      rw [← (List.cons.inj hrest).1] at hbefore
      simp [hbefore]

/-- What the loop leaves in the buffer at `rcvNxt` is out of reach from the start. -/
lemma Moved.blocked (moved : Moved first cb)
    (ends : ∀ seg rest, AtEnd cb.rcvBuf seg rest → cb.rcvNxt < seg.rangeStart)
    {seg : IntcpSeg} (left : seg ∈ cb.rcvBuf) (next : seg.rangeStart = cb.rcvNxt) :
    Blocked first.rcvBuf cb.rcvNxt := by
  obtain ⟨front, back, hbuf, hfront, hback⟩ := moved.trimmed
  refine ⟨⟨seg, by simp [hbuf, left], next⟩, ?_⟩
  rintro x hx ⟨before, after, hsplit, hside⟩
  have later : ∀ y : IntcpSeg, cb.rcvNxt < y.rangeStart → x ≠ y := by
    rintro y hy rfl
    exact absurd hx (UInt32.ne_of_lt hy).symm
  have gone : ∀ list : List IntcpSeg, (∀ y ∈ list, y.rangeStart < cb.rcvNxt) → x ∉ list :=
    fun list hlist hmem => absurd hx (UInt32.ne_of_lt (hlist x hmem))
  have between : ∀ y : IntcpSeg, cb.rcvNxt < y.rangeStart → ¬ y.rangeStart ≤ x.rangeStart :=
    fun y hy => hx ▸ UInt32.not_le.mpr hy
  rw [hbuf] at hsplit
  rcases hside with hside | hside
  · obtain ⟨segBegin, behind, hcons⟩ := List.exists_cons_of_ne_nil (List.ne_nil_of_mem left)
    have hbegin := ends segBegin behind (Or.inl hcons)
    have hmem : segBegin ∈ before := by
      apply mem_before _ (gone front hfront) (later segBegin hbegin)
      · exact behind ++ back
      · exact after
      · simpa [hcons] using hsplit.symm
    exact between segBegin hbegin (hside segBegin hmem)
  · -- the same from the other end
    obtain ⟨ahead, segEnd, hconcat⟩ :=
      (List.eq_nil_or_concat' cb.rcvBuf).resolve_left (List.ne_nil_of_mem left)
    have hend := ends segEnd ahead (Or.inr hconcat)
    have hmem : segEnd ∈ after.reverse := by
      apply mem_before _ (gone back.reverse _) (later segEnd hend)
      · exact (front ++ ahead).reverse
      · exact before.reverse
      · have := congrArg List.reverse hsplit
        simpa [hconcat] using this.symm
      · simpa using hback
    exact between segEnd hend (hside segEnd (List.mem_reverse.mp hmem))

lemma Exposed.mem {buf : List IntcpSeg} {seg : IntcpSeg} (exposed : Exposed buf seg) :
    seg ∈ buf := by
  obtain ⟨front, back, hbuf, _⟩ := exposed
  simp [hbuf]

/-- Where the loop ends and nothing continues the chain, no chain leads to segments out of reach:
they would be left there, or exposed. -/
lemma Moved.clear (moved : Moved first cb) (chained : Chained first cb) (drained : Drained cb) :
    Clear first := by
  obtain ⟨segs, window, hqueue, leads, -⟩ := chained
  obtain ⟨segs', hqueue', hexposed⟩ := moved.delivered
  obtain rfl : segs = segs' := List.append_cancel_left (hqueue.symm.trans hqueue')
  have hlength : cb.rcvQueue.length = first.rcvQueue.length + segs.length := by
    rw [hqueue, List.length_append]
  have gone : ∀ seg ∈ first.rcvBuf, seg.rangeStart = cb.rcvNxt →
      ¬ cb.rcvQueue.length < intcpWndRcv.toNat := fun seg hseg hnow room =>
    drained room seg (moved.remains hseg (UInt32.le_of_eq hnow.symm)) hnow
  rintro chain window' m chain_leads room ⟨⟨seg, hseg, hstart⟩, hidden⟩
  rcases Nat.lt_trichotomy chain.length segs.length with shorter | same | longer
  · obtain ⟨x, rest, hx, takes⟩ := chain_leads.goesOn_of_shorter leads shorter
    exact hidden x takes.mem.2.1 (hexposed x hx)
  · obtain ⟨rfl, -, rfl⟩ := chain_leads.unique leads same
    exact gone seg hseg hstart (by omega)
  · obtain ⟨x, rest, -, takes⟩ := leads.goesOn_of_shorter chain_leads longer
    exact gone x (leads.mem x takes.mem.1) takes.mem.2.1 (by omega)

/-- The loop delivers a chain from `rcvNxt` on, and leaves nothing that continues it if and only if
no chain that is taken from the buffer leads to segments out of reach. -/
theorem moveToRcvQueue_drains_iff {cb : IntcpTransCB F nameLen}
    (requester : cb.nodeRole = .requester)
    (next : cb.rcvNxt ≠ 0) (proper : ∀ seg ∈ cb.rcvBuf, seg.rangeStart < seg.rangeEnd) :
    ∃ cb' segs, moveToRcvQueue cb = some cb' ∧ cb'.rcvQueue = cb.rcvQueue ++ segs ∧
      Follows cb.rcvNxt segs cb'.rcvNxt ∧ (Clear cb ↔ Drained cb') := by
  have ordered : cb.nodeRole ≠ .midnode := by
    rw [requester]
    decide
  have start : Moved cb cb ∧ Chained cb cb :=
    ⟨⟨rfl, next, ⟨[], [], by simp, nofun, nofun⟩, [], (List.append_nil _).symm, nofun⟩,
      [], cb.rcvBuf, (List.append_nil _).symm, .here, .inl rfl⟩
  obtain ⟨cb', hreturns, ⟨moved, chained⟩, ends⟩ := loop_total
    (fun now => Moved cb now ∧ Chained cb now)
    (fun cb' => (Moved cb cb' ∧ Chained cb cb') ∧ (cb'.rcvQueue.length < intcpWndRcv.toNat →
      ∀ seg rest, AtEnd cb'.rcvBuf seg rest → cb'.rcvNxt < seg.rangeStart))
    (fun cb' => cb'.rcvBuf.length)
    (fun s t inv h => by
      have hnow := inv.1.role ▸ ordered
      obtain ⟨hmoved, hless⟩ := inv.1.pass ordered proper h
      exact ⟨⟨hmoved, inv.2.pass hnow inv.1.next h⟩, hless⟩)
    (fun s r inv h => by
      obtain ⟨rfl, ends⟩ := movePass_leave (inv.1.role ▸ ordered) h
      exact ⟨inv, ends⟩) start (Nat.lt_succ_self cb.rcvBuf.length)
  have enough : Drained cb' → Clear cb := moved.clear chained
  obtain ⟨segs, window, hqueue, leads, -⟩ := chained
  refine ⟨cb', segs, hreturns, hqueue, leads.follows, ?_, enough⟩
  intro clear room seg hseg hnext
  refine clear segs window cb'.rcvNxt leads ?_ (moved.blocked (ends room) hseg hnext)
  rwa [hqueue, List.length_append] at room

/-- One or two late segments are always in reach. -/
lemma exposed_of_two {buf : List IntcpSeg} (two : buf.length ≤ 2) {seg : IntcpSeg}
    (mem : seg ∈ buf) : Exposed buf seg := by
  obtain ⟨front, back, rfl⟩ := List.append_of_mem mem
  refine ⟨front, back, rfl, ?_⟩
  simp only [List.length_append, List.length_cons] at two
  rcases front with _ | ⟨x, front⟩
  · exact Or.inl nofun
  · rcases back with _ | ⟨y, back⟩
    · exact Or.inr nofun
    · simp only [List.length_cons] at two
      omega

lemma clear_of_two {cb : IntcpTransCB F nameLen} (two : cb.rcvBuf.length ≤ 2) : Clear cb := by
  rintro segs window m _ _ ⟨⟨seg, hmem, hstart⟩, hidden⟩
  exact hidden seg hstart (exposed_of_two two hmem)

def oneByte (o : UInt32) : IntcpSeg := DataPlane.pushSeg freeClock o (o + 1) 1 [0] rfl

def waiting (offsets : List UInt32) : IntcpTransCB Rat 1 :=
  { IntcpTransCB.create freeClock .requester #v[120] (BlockCache.Cache.fresh fun _ _ => 0) with
    rcvNxt := 1
    rcvBuf := offsets.map oneByte }

/-- The byte 2 came before the byte 1. -/
theorem two_late_drain : ∃ cb' segs, moveToRcvQueue (waiting [2, 1]) = some cb' ∧
    cb'.rcvQueue = segs ∧ Follows 1 segs cb'.rcvNxt ∧ Drained cb' := by
  obtain ⟨cb', segs, hreturns, hqueue, hfollows, hdrained⟩ :=
    @moveToRcvQueue_drains_iff _ _ (waiting [2, 1]) rfl (by decide) (by decide)
  exact ⟨cb', segs, hreturns, hqueue, hfollows, hdrained.mp (clear_of_two (by decide))⟩

/-- With the byte 3 behind them the byte 1 is stuck. -/
theorem middle_stuck : moveToRcvQueue (waiting [2, 1, 3]) = some (waiting [2, 1, 3]) ∧
    ¬ Drained (waiting [2, 1, 3]) := by
  refine ⟨rfl, fun drained => ?_⟩
  exact drained (by decide) (oneByte 1) (by simp [waiting]) rfl

end ReorderQueue
