import Intcp.Dicts
import Intcp.TextScan
import Intcp.WireWalkers

/-!
# What the delay log says

`sniff.py` prints a line with the time for every data segment or TCP packet that it catches
on its way to h1, at either end, and `autoAnlz.py` reads the two logs back, pairs the first
lines of each offset and writes the delays. The clock that is printed starts anew every
1000 s. Numbers are exact here.
-/

namespace DelayLog

open DataPlane Dicts InputLoop SegmentCodec TextScan TransControl WireWalkers

/-- `'%.4f' % (time.time() % 1000)` -/
def getStrTime (time : Rat) : Text := format 4 (time - 1000 * ⌊time / 1000⌋)

/-- What `print` writes before the end of the line. -/
def printArgs (args : List Text) : Text := [' '].intercalate args

/-- A line of `Callback_udp`, or one of `Callback_tcp`. -/
inductive Packet where
  | udp (line : Line)
  | tcp (seq length : Nat)

def Packet.text (time : Rat) : Packet → Text
  | .udp line => printArgs ["sn".toList, decimal line.sn, "length".toList, decimal line.length,
      "rangeStart".toList, decimal line.rangeStart, "rangeEnd".toList, decimal line.rangeEnd,
      "time".toList, getStrTime time]
  | .tcp seq length => printArgs ["seq".toList, decimal seq, "length".toList, decimal length,
      "time".toList, getStrTime time]

/-- What is caught, the clock being read for each line. -/
def sniff (caught : List (Packet × Rat)) : Text :=
  "begin to catch packets..\n".toList ++ caught.flatMap fun c => c.1.text c.2 ++ ['\n']

inductive Protocol where
  | tcp
  | intcp
  deriving DecidableEq

/-- `none` where it raises. -/
def parseLine (line : Text) : Protocol → Option (Int × Int × Rat)
  | .tcp => do
    let p1 := find line "length".toList
    let p2 := find line "time".toList
    let seq ← readInt (cut line 4 (p1 - 1))
    let length ← readInt (cut line (p1 + 7) (p2 - 1))
    let time ← readFloat (cutFrom line (p2 + 5))
    some (seq, length, time)
  | .intcp => do
    let p1 := find line "rangeStart".toList
    let p3 := find line "time".toList
    let p2 := if contains line "rangeEnd".toList then find line "rangeEnd".toList else p3
    let rs ← readInt (cut line (p1 + 11) (p2 - 1))
    let re ← readInt (cut line (p2 + 9) (p3 - 1))
    let time ← readFloat (cutFrom line (p3 + 5))
    some (rs, re - rs, time)

/-- The first time of each offset stays; lines that cannot be read are passed over. -/
def noteLine (protocol : Protocol) (times : List (Int × Rat)) (line : Text) : List (Int × Rat) :=
  if contains line "time".toList then
    match parseLine line protocol with
    | some (seq, _, time) => if seq ∈ keys times then times else assign times seq time
    | none => times
  else times

def loadTimes (protocol : Protocol) (log : Text) : List (Int × Rat) :=
  (readlines log).foldl (noteLine protocol) []

/-- A receive time that is slightly earlier is abnormal; otherwise the clock has started anew. -/
def owdObs (tcDelay sendTime recvTime : Rat) : Option Rat :=
  let owd_s := recvTime - sendTime
  if -10 < owd_s ∧ owd_s < 0 then none
  else some (1000 * (if owd_s < 0 then owd_s + 1000 else owd_s) + tcDelay)

/-- Each offset occurs once in `sendTimeDict`. -/
def owdDict (tcDelay : Rat) (sendTimeDict recvTimeDict : List (Int × Rat)) : List (Int × Rat) :=
  sendTimeDict.filterMap fun sent => (get? recvTimeDict sent.1).bind fun recvTime =>
    (owdObs tcDelay sent.2 recvTime).map fun owd => (sent.1, owd)

def owdLine (item : Int × Rat) : Text :=
  "seq ".toList ++ decimalInt item.1 ++ " owd_obs ".toList ++ format 6 item.2

def generateLog (protocol : Protocol) (tcDelay : Rat) (senderLog receiverLog : Text) : Text :=
  (owdDict tcDelay (loadTimes protocol senderLog) (loadTimes protocol receiverLog)).flatMap
    fun item => owdLine item ++ ['\n']

def loadOwd (log : Text) : List Rat :=
  (readlines log).filterMap fun line =>
    if contains line "owd_obs".toList then
      readFloat (cutFrom line (find line "owd_obs".toList + 8))
    else none

def Packet.protocol : Packet → Protocol
  | .udp _ => .intcp
  | .tcp _ _ => .tcp

def Packet.seq : Packet → Nat
  | .udp line => line.rangeStart
  | .tcp seq _ => seq

/-- What a printed time is read as. -/
def reading (time : Rat) : Rat := (nearest (10 ^ 4 * (time - 1000 * ⌊time / 1000⌋)) : Rat) / 10 ^ 4

/-- The clock since it last started. -/
lemma clock_nonneg (time : Rat) : 0 ≤ time - 1000 * ⌊time / 1000⌋ := by
  have below := Int.floor_le (time / 1000)
  linarith

lemma readFloat_strTime (time : Rat) :
    readFloat (getStrTime time ++ ['\n']) = some (reading time) :=
  readFloat_format 4 (clock_nonneg time) (by decide)

lemma place?_decimal {c : Char} {pat : Text} (letter : c.isDigit = false) (n : Nat) (rest : Text) :
    place? (c :: pat) (decimal n ++ rest) =
      (place? (c :: pat) rest).map (· + (decimal n).length) := by
  refine place?_skips (fun d hd => ?_) rest
  rintro rfl
  rw [isDigit_decimal hd] at letter
  cases letter

lemma place?_decimalInt {c : Char} {pat : Text} (letter : c.isDigit = false) (sign : c ≠ '-')
    (n : Int) (rest : Text) :
    place? (c :: pat) (decimalInt n ++ rest) =
      (place? (c :: pat) rest).map (· + (decimalInt n).length) := by
  refine place?_skips (fun d hd => ?_) rest
  rintro rfl
  rcases mem_decimalInt hd with h | h
  · rw [h] at letter
    cases letter
  · exact sign h

lemma parseLine_tcp (seq length : Nat) (time : Rat) :
    parseLine ((Packet.tcp seq length).text time ++ ['\n']) .tcp =
      some ((seq : Int), (length : Int), reading time) := by
  have letterL : Char.isDigit 'l' = false := by decide
  have letterT : Char.isDigit 't' = false := by decide
  have htext : (Packet.tcp seq length).text time ++ ['\n'] =
      "seq ".toList ++ (decimal seq ++ (" length ".toList ++ (decimal length ++
        (" time ".toList ++ (getStrTime time ++ ['\n']))))) := by
    simp [Packet.text, printArgs, List.intercalate, List.intersperse]
  generalize (Packet.tcp seq length).text time ++ ['\n'] = line at htext ⊢
  have p1 : find line "length".toList = ((decimal seq).length + 5 : Nat) := by
    refine find_of_place? ?_
    rw [htext]
    simp [place?, place?_decimal, letterL]
    omega
  have p2 : find line "time".toList =
      ((decimal seq).length + (decimal length).length + 13 : Nat) := by
    refine find_of_place? ?_
    rw [htext]
    simp [place?, place?_decimal, letterT]
    omega
  have hseq : cut line 4 (((decimal seq).length + 5 : Nat) - 1) = decimal seq := by
    refine cut_middle _ _ _ htext rfl ?_
    simp
    omega
  have hlength : cut line (((decimal seq).length + 5 : Nat) + 7)
      (((decimal seq).length + (decimal length).length + 13 : Nat) - 1) = decimal length := by
    refine cut_middle ("seq ".toList ++ (decimal seq ++ " length ".toList)) _
      (" time ".toList ++ (getStrTime time ++ ['\n'])) ?_ ?_ ?_
    · simp [htext]
    · simp
      omega
    · simp
      omega
  have htime : cutFrom line (((decimal seq).length + (decimal length).length + 13 : Nat) + 5) =
      getStrTime time ++ ['\n'] := by
    refine cutFrom_end ("seq ".toList ++ (decimal seq ++ (" length ".toList ++
      (decimal length ++ " time ".toList)))) _ ?_ ?_
    · simp [htext]
    · simp
      omega
  simp only [parseLine, p1, p2, hseq, hlength, htime, readInt_decimal, readFloat_strTime,
    Option.bind_some, Option.bind_eq_bind]

lemma parseLine_intcp (printed : Line) (time : Rat) :
    parseLine ((Packet.udp printed).text time ++ ['\n']) .intcp =
      some ((printed.rangeStart : Int), (printed.rangeEnd : Int) - printed.rangeStart,
        reading time) := by
  obtain ⟨sn, length, rangeStart, rangeEnd⟩ := printed
  have letterR : Char.isDigit 'r' = false := by decide
  have letterT : Char.isDigit 't' = false := by decide
  have htext : (Packet.udp ⟨sn, length, rangeStart, rangeEnd⟩).text time ++ ['\n'] =
      "sn ".toList ++ (decimal sn ++ (" length ".toList ++ (decimal length ++
        (" rangeStart ".toList ++ (decimal rangeStart ++ (" rangeEnd ".toList ++
          (decimal rangeEnd ++ (" time ".toList ++ (getStrTime time ++ ['\n']))))))))) := by
    simp [Packet.text, printArgs, List.intercalate, List.intersperse]
  generalize (Packet.udp ⟨sn, length, rangeStart, rangeEnd⟩).text time ++ ['\n'] = line
    at htext ⊢
  have p1 : find line "rangeStart".toList =
      ((decimal sn).length + (decimal length).length + 12 : Nat) := by
    refine find_of_place? ?_
    rw [htext]
    simp [place?, place?_decimal, letterR]
    omega
  have place2 : place? "rangeEnd".toList line = some
      ((decimal sn).length + (decimal length).length + (decimal rangeStart).length + 24) := by
    rw [htext]
    simp [place?, place?_decimal, letterR]
    omega
  have p3 : find line "time".toList = ((decimal sn).length + (decimal length).length +
      (decimal rangeStart).length + (decimal rangeEnd).length + 34 : Nat) := by
    refine find_of_place? ?_
    rw [htext]
    simp [place?, place?_decimal, letterT]
    omega
  have p2 := find_of_place? place2
  have hrs : cut line (((decimal sn).length + (decimal length).length + 12 : Nat) + 11)
      (((decimal sn).length + (decimal length).length + (decimal rangeStart).length + 24 : Nat) - 1) =
        decimal rangeStart := by
    refine cut_middle ("sn ".toList ++ (decimal sn ++ (" length ".toList ++ (decimal length ++
      " rangeStart ".toList)))) _ (" rangeEnd ".toList ++ (decimal rangeEnd ++ (" time ".toList ++
        (getStrTime time ++ ['\n'])))) ?_ ?_ ?_
    · simp [htext]
    · simp
      omega
    · simp
      omega
  have hre : cut line
      (((decimal sn).length + (decimal length).length + (decimal rangeStart).length + 24 : Nat) + 9)
      (((decimal sn).length + (decimal length).length + (decimal rangeStart).length +
        (decimal rangeEnd).length + 34 : Nat) - 1) = decimal rangeEnd := by
    refine cut_middle ("sn ".toList ++ (decimal sn ++ (" length ".toList ++ (decimal length ++
      (" rangeStart ".toList ++ (decimal rangeStart ++ " rangeEnd ".toList)))))) _
        (" time ".toList ++ (getStrTime time ++ ['\n'])) ?_ ?_ ?_
    · simp [htext]
    · simp
      omega
    · simp
      omega
  have htime : cutFrom line (((decimal sn).length + (decimal length).length +
      (decimal rangeStart).length + (decimal rangeEnd).length + 34 : Nat) + 5) =
        getStrTime time ++ ['\n'] := by
    refine cutFrom_end ("sn ".toList ++ (decimal sn ++ (" length ".toList ++ (decimal length ++
      (" rangeStart ".toList ++ (decimal rangeStart ++ (" rangeEnd ".toList ++ (decimal rangeEnd ++
        " time ".toList)))))))) _ ?_ ?_
    · simp [htext]
    · simp
      omega
  simp only [parseLine, p1, p2, p3, contains_of_place? place2, if_true, hrs, hre, htime,
    readInt_decimal, readFloat_strTime, Option.bind_some, Option.bind_eq_bind]

/-- Every line says a time, and there is one line only. -/
lemma text_line (packet : Packet) (time : Rat) :
    contains (packet.text time ++ ['\n']) "time".toList = true ∧ '\n' ∉ packet.text time := by
  have letterT : Char.isDigit 't' = false := by decide
  have hlast : '\n' ∉ getStrTime time := newline_format 4 _
  cases packet with
  | udp printed =>
    constructor
    · simp [contains, Packet.text, printArgs, List.intercalate, List.intersperse, place?,
        place?_decimal, letterT]
    · simp [Packet.text, printArgs, List.intercalate, List.intersperse, newline_decimal, hlast]
  | tcp seq length =>
    constructor
    · simp [contains, Packet.text, printArgs, List.intercalate, List.intersperse, place?,
        place?_decimal, letterT]
    · simp [Packet.text, printArgs, List.intercalate, List.intersperse, newline_decimal, hlast]

/-- The offset and the time, as they are read. -/
def noted (c : Packet × Rat) : Int × Rat := (c.1.seq, reading c.2)

lemma noteLine_text {protocol : Protocol} {c : Packet × Rat} (same : c.1.protocol = protocol)
    (times : List (Int × Rat)) :
    noteLine protocol times (c.1.text c.2 ++ ['\n']) = note times (noted c) := by
  obtain ⟨packet, time⟩ := c
  rw [noteLine, if_pos (text_line packet time).1]
  subst same
  cases packet with
  | udp printed =>
    simp only [Packet.protocol, parseLine_intcp]
    rfl
  | tcp seq length =>
    simp only [Packet.protocol, parseLine_tcp]
    rfl

lemma loadTimes_sniff {protocol : Protocol} {caught : List (Packet × Rat)}
    (same : ∀ c ∈ caught, c.1.protocol = protocol) :
    loadTimes protocol (sniff caught) = (caught.map noted).foldl note [] := by
  have preamble : readlines (sniff caught) =
      "begin to catch packets..\n".toList :: caught.map fun c => c.1.text c.2 ++ ['\n'] := by
    have hone : '\n' ∉ "begin to catch packets..".toList := by decide
    have hlines := readlines_line hone (caught.flatMap fun c => c.1.text c.2 ++ ['\n'])
    rw [readlines_lines fun c : Packet × Rat => (text_line c.1 c.2).2] at hlines
    exact hlines
  have skipped : noteLine protocol [] "begin to catch packets..\n".toList = [] := by
    rw [noteLine, if_neg]
    decide
  rw [loadTimes, preamble, List.foldl_cons, skipped, List.foldl_map, List.foldl_map]
  clear preamble skipped
  generalize ([] : List (Int × Rat)) = times
  induction caught generalizing times with
  | nil => rfl
  | cons c caught ih =>
    obtain ⟨hc, hrest⟩ := List.forall_mem_cons.mp same
    rw [List.foldl_cons, List.foldl_cons, noteLine_text hc, ih hrest]

/-- What was caught of each offset, in the order in which the offsets came. -/
def seen (caught : List (Packet × Rat)) : List (Int × Rat) := caught.map fun c => (c.1.seq, c.2)

lemma get?_loadTimes {protocol : Protocol} {caught : List (Packet × Rat)}
    (same : ∀ c ∈ caught, c.1.protocol = protocol) (seq : Int) :
    get? (loadTimes protocol (sniff caught)) seq = (get? (seen caught) seq).map reading := by
  have hnoted : caught.map noted = (seen caught).map fun item => (item.1, reading item.2) := by
    rw [seen, List.map_map]
    rfl
  have values := get?_mapValues (seen caught) (fun _ time => reading time) seq
  rw [loadTimes_sniff same, get?_notes, hnoted, values]
  rfl

lemma keys_loadTimes {protocol : Protocol} {caught : List (Packet × Rat)}
    (same : ∀ c ∈ caught, c.1.protocol = protocol) :
    keys (loadTimes protocol (sniff caught)) = (keys (seen caught)).eraseDups := by
  have hkeys : keys (caught.map noted) = keys (seen caught) := by
    simp [keys, seen, noted]
  rw [loadTimes_sniff same, keys_notes, hkeys]
  simp [keys]

/-- The tenths of a millisecond that are printed, from the start of all time. -/
def ticks (time : Rat) : Int := nearest (10 ^ 4 * time)

lemma reading_eq (time : Rat) :
    reading time = ((ticks time : Rat) - 10 ^ 7 * ⌊time / 1000⌋) / 10 ^ 4 := by
  have shifted : nearest (10 ^ 4 * (time - 1000 * ⌊time / 1000⌋)) =
      ticks time - 10 ^ 7 * ⌊time / 1000⌋ := by
    have again := nearest_add_even (10 ^ 4 * (time - 1000 * ⌊time / 1000⌋))
      (5 * 10 ^ 6 * ⌊time / 1000⌋)
    have whole : 10 ^ 4 * (time - 1000 * ⌊time / 1000⌋) +
        ((2 * (5 * 10 ^ 6 * ⌊time / 1000⌋) : Int) : Rat) = 10 ^ 4 * time := by
      push_cast
      ring
    rw [whole] at again
    rw [ticks, again]
    ring
  rw [reading, shifted]
  push_cast
  rfl

/-- A packet that arrives within 990 s of its sending. -/
def Prompt (sendTime recvTime : Rat) : Prop := sendTime ≤ recvTime ∧ recvTime ≤ sendTime + 990

lemma ticks_prompt {sendTime recvTime : Rat} (prompt : Prompt sendTime recvTime) :
    ticks sendTime ≤ ticks recvTime ∧ ticks recvTime ≤ ticks sendTime + 9900000 := by
  obtain ⟨early, late⟩ := prompt
  constructor
  · exact nearest_mono (by linarith)
  · have again := nearest_add_even (10 ^ 4 * sendTime) 4950000
    have later : 10 ^ 4 * recvTime ≤ 10 ^ 4 * sendTime + ((2 * 4950000 : Int) : Rat) := by
      push_cast
      linarith
    have up := nearest_mono later
    rw [again] at up
    exact up

/-- The clock starts anew at most once on the way. -/
lemma starts_prompt {sendTime recvTime : Rat} (prompt : Prompt sendTime recvTime) :
    ⌊recvTime / 1000⌋ = ⌊sendTime / 1000⌋ ∨ ⌊recvTime / 1000⌋ = ⌊sendTime / 1000⌋ + 1 := by
  obtain ⟨early, late⟩ := prompt
  have low : ⌊sendTime / 1000⌋ ≤ ⌊recvTime / 1000⌋ := Int.floor_le_floor (by linarith)
  have high : ⌊recvTime / 1000⌋ ≤ ⌊sendTime / 1000⌋ + 1 := by
    have step : ⌊sendTime / 1000 + 1⌋ = ⌊sendTime / 1000⌋ + 1 := Int.floor_add_one _
    rw [← step]
    exact Int.floor_le_floor (by linarith)
  omega

/-- What a delay is shown as is the ticks between the two ends, also where the clock starts
anew between them. -/
lemma owdObs_reading (tcDelay : Rat) {sendTime recvTime : Rat} (prompt : Prompt sendTime recvTime) :
    owdObs tcDelay (reading sendTime) (reading recvTime) =
      some (((ticks recvTime : Rat) - ticks sendTime) / 10 + tcDelay) := by
  obtain ⟨early, late⟩ := ticks_prompt prompt
  have hearly : (ticks sendTime : Rat) ≤ ticks recvTime := by exact_mod_cast early
  have hlate : (ticks recvTime : Rat) ≤ ticks sendTime + 9900000 := by exact_mod_cast late
  rw [owdObs]
  rcases starts_prompt prompt with same | anew
  · have owd_s : reading recvTime - reading sendTime =
        ((ticks recvTime : Rat) - ticks sendTime) / 10 ^ 4 := by
      rw [reading_eq, reading_eq, same]
      ring
    have forward : ¬ ((ticks recvTime : Rat) - ticks sendTime) / 10 ^ 4 < 0 := by
      linarith
    simp only [owd_s, forward, and_false, if_false]
    exact congrArg some (by ring)
  · have owd_s : reading recvTime - reading sendTime =
        ((ticks recvTime : Rat) - ticks sendTime) / 10 ^ 4 - 1000 := by
      rw [reading_eq, reading_eq, anew]
      push_cast
      ring
    have back : ((ticks recvTime : Rat) - ticks sendTime) / 10 ^ 4 - 1000 < 0 := by
      linarith
    have far : ¬ -10 < ((ticks recvTime : Rat) - ticks sendTime) / 10 ^ 4 - 1000 := by
      linarith
    simp only [owd_s, far, back, false_and, if_false, if_true]
    exact congrArg some (by ring)

/-- What `'%f'` shows is read as this. -/
def shown (owd : Rat) : Rat := (nearest (10 ^ 6 * owd) : Rat) / 10 ^ 6

lemma newline_owdLine (item : Int × Rat) : '\n' ∉ owdLine item := by
  have hseq : '\n' ∉ decimalInt item.1 := fun h => by
    rcases mem_decimalInt h with h | h
    · cases h
    · cases h
  have howd := newline_format 6 item.2
  simp [owdLine, hseq, howd]

/-- The word and the number behind it are found in a line of the log. -/
lemma owd_owdLine (item : Int × Rat) :
    contains (owdLine item ++ ['\n']) "owd_obs".toList = true ∧
      cutFrom (owdLine item ++ ['\n'])
          (find (owdLine item ++ ['\n']) "owd_obs".toList + 8) = format 6 item.2 ++ ['\n'] := by
  have hline : owdLine item ++ ['\n'] =
      "seq ".toList ++ (decimalInt item.1 ++ (" owd_obs ".toList ++
        (format 6 item.2 ++ ['\n']))) := by
    simp [owdLine]
  generalize owdLine item ++ ['\n'] = line at hline ⊢
  have letterO : Char.isDigit 'o' = false := by decide
  have hplace : place? "owd_obs".toList line = some ((decimalInt item.1).length + 5) := by
    rw [hline]
    simp [place?, place?_decimalInt, letterO]
    omega
  refine ⟨contains_of_place? hplace, ?_⟩
  rw [find_of_place? hplace]
  refine cutFrom_end ("seq ".toList ++ (decimalInt item.1 ++ " owd_obs ".toList)) _ ?_ ?_
  · simp [hline]
  · simp
    omega

/-- A log is read back. -/
lemma loadOwd_lines {items : List (Int × Rat)} (nonneg : ∀ item ∈ items, 0 ≤ item.2) :
    loadOwd (items.flatMap fun item => owdLine item ++ ['\n']) =
      items.map fun item => shown item.2 := by
  rw [loadOwd, readlines_lines newline_owdLine, List.filterMap_map, ← List.filterMap_eq_map]
  refine List.filterMap_congr fun item hitem => ?_
  obtain ⟨there, owd⟩ := owd_owdLine item
  rw [Function.comp_apply, Function.comp_apply, if_pos there, owd]
  exact readFloat_format 6 (nonneg item hitem) (by decide)

/-- When each offset was first seen on either side, for those that were seen on both. -/
def firsts (sent received : List (Int × Rat)) : List (Rat × Rat) :=
  (keys sent).eraseDups.filterMap fun seq => (get? sent seq).bind fun sendTime =>
    (get? received seq).map fun recvTime => (sendTime, recvTime)

lemma owdDict_loadTimes {protocol : Protocol} {sender receiver : List (Packet × Rat)}
    (sends : ∀ c ∈ sender, c.1.protocol = protocol)
    (receives : ∀ c ∈ receiver, c.1.protocol = protocol)
    (prompt : ∀ first ∈ firsts (seen sender) (seen receiver), Prompt first.1 first.2)
    (tcDelay : Rat) :
    (owdDict tcDelay (loadTimes protocol (sniff sender)) (loadTimes protocol (sniff receiver))).map
        Prod.snd =
      (firsts (seen sender) (seen receiver)).map fun first =>
        ((ticks first.2 : Rat) - ticks first.1) / 10 + tcDelay := by
  have unique : (keys (loadTimes protocol (sniff sender))).Nodup := by
    rw [loadTimes_sniff sends]
    exact nodup_notes (d := []) List.nodup_nil _
  rw [owdDict, filterMap_keys unique fun seq sendTime =>
    (get? (loadTimes protocol (sniff receiver)) seq).bind fun recvTime =>
      (owdObs tcDelay sendTime recvTime).map fun owd => (seq, owd)]
  rw [keys_loadTimes sends, List.map_filterMap, firsts, List.map_filterMap]
  refine List.filterMap_congr fun seq hseq => ?_
  rw [get?_loadTimes sends, get?_loadTimes receives]
  cases hsend : get? (seen sender) seq with
  | none => rfl
  | some sendTime =>
    cases hrecv : get? (seen receiver) seq with
    | none => rfl
    | some recvTime =>
      have both : (sendTime, recvTime) ∈ firsts (seen sender) (seen receiver) := by
        refine List.mem_filterMap.mpr ⟨seq, hseq, ?_⟩
        rw [hsend, hrecv]
        rfl
      simp [owdObs_reading tcDelay (prompt _ both)]

/-- The delay in ms that is logged for a packet that was first seen at these times, and what it
was. -/
def Close (tcDelay owd : Rat) (first : Rat × Rat) : Prop :=
  |owd - (1000 * (first.2 - first.1) + tcDelay)| ≤ 1 / 10 + 1 / 2000000

lemma close_shown (tcDelay : Rat) (first : Rat × Rat) :
    Close tcDelay (shown (((ticks first.2 : Rat) - ticks first.1) / 10 + tcDelay)) first := by
  obtain ⟨sendLow, sendHigh⟩ := nearest_bounds (10 ^ 4 * first.1)
  obtain ⟨recvLow, recvHigh⟩ := nearest_bounds (10 ^ 4 * first.2)
  obtain ⟨low, high⟩ :=
    nearest_bounds (10 ^ 6 * (((ticks first.2 : Rat) - ticks first.1) / 10 + tcDelay))
  rw [Close, abs_le, shown]
  simp only [ticks] at *
  constructor
  · linarith
  · linarith

/-- The delays loaded from the log that is generated from the two captures are, in the order in
which the offsets were first sent, those of the offsets that arrived. -/
lemma loadOwd_captures {protocol : Protocol} {sender receiver : List (Packet × Rat)}
    (sends : ∀ c ∈ sender, c.1.protocol = protocol)
    (receives : ∀ c ∈ receiver, c.1.protocol = protocol)
    (prompt : ∀ first ∈ firsts (seen sender) (seen receiver), Prompt first.1 first.2)
    {tcDelay : Rat} (nonneg : 0 ≤ tcDelay) :
    List.Forall₂ (Close tcDelay)
      (loadOwd (generateLog protocol tcDelay (sniff sender) (sniff receiver)))
      (firsts (seen sender) (seen receiver)) := by
  have howds := owdDict_loadTimes sends receives prompt tcDelay
  have nonneg : ∀ item ∈ owdDict tcDelay (loadTimes protocol (sniff sender))
      (loadTimes protocol (sniff receiver)), 0 ≤ item.2 := by
    intro item hitem
    have hmem := howds ▸ List.mem_map_of_mem (f := Prod.snd) hitem
    obtain ⟨first, hfirst, howd⟩ := List.mem_map.mp hmem
    have early : (ticks first.1 : Rat) ≤ ticks first.2 := by
      exact_mod_cast (ticks_prompt (prompt first hfirst)).1
    rw [← howd]
    linarith
  have hshown : (owdDict tcDelay (loadTimes protocol (sniff sender))
      (loadTimes protocol (sniff receiver))).map (fun item => shown item.2) =
        (firsts (seen sender) (seen receiver)).map fun first =>
          shown (((ticks first.2 : Rat) - ticks first.1) / 10 + tcDelay) := by
    have := congrArg (List.map shown) howds
    rwa [List.map_map, List.map_map] at this
  rw [generateLog, loadOwd_lines nonneg, hshown, List.forall₂_map_left_iff, List.forall₂_same]
  exact fun first _ => close_shown tcDelay first

/-- A UDP packet on its way to h1, and the clock at each of its lines. -/
structure Datagram where
  bytePayload : List UInt8
  clock : Nat → Rat

/-- `Callback_udp` for each packet. -/
def sniffUdp : Nat → List Datagram → List (Packet × Rat)
  | _, [] => []
  | packet_cnt, packet :: packets =>
    let sniffed := callbackUdp packet.bytePayload packet_cnt
    (sniffed.lines.zipIdx.map fun l => (.udp l.1, packet.clock l.2)) ++
      sniffUdp sniffed.packet_cnt packets

/-- A packet made of framed segments, also with stray bytes at its end. -/
structure Framed where
  segs : List IntcpSeg
  stray : List UInt8
  short : stray.length < 23
  clock : Nat → Rat

def Framed.datagram (framed : Framed) : Datagram where
  bytePayload := framed.segs.flatMap frame ++ framed.stray
  clock := framed.clock

/-- The first byte of each PUSH segment, and when it was seen. -/
def Framed.pushes (framed : Framed) : List (Int × Rat) :=
  (printed framed.segs).zipIdx.map fun l => (l.1.rangeStart, framed.clock l.2)

lemma sniffUdp_protocol {packet_cnt : Nat} {packets : List Datagram} :
    ∀ c ∈ sniffUdp packet_cnt packets, c.1.protocol = .intcp := by
  induction packets generalizing packet_cnt with
  | nil => simp [sniffUdp]
  | cons packet packets ih =>
    intro c hc
    rcases List.mem_append.mp hc with hc | hc
    · obtain ⟨l, -, rfl⟩ := List.mem_map.mp hc
      rfl
    · exact ih c hc

lemma seen_sniffUdp (packet_cnt : Nat) (captured : List Framed) :
    seen (sniffUdp packet_cnt (captured.map Framed.datagram)) = captured.flatMap Framed.pushes := by
  induction captured generalizing packet_cnt with
  | nil => rfl
  | cons framed captured ih =>
    have hsniff := callbackLoop_frames framed.segs framed.short
      (framed.segs.flatMap frame ++ framed.stray)
      ((framed.segs.flatMap frame ++ framed.stray).length + 1) 0 List.drop_zero (Nat.zero_le _)
      (Nat.lt_succ_self _) packet_cnt
    have hlines : (callbackUdp framed.datagram.bytePayload packet_cnt).lines =
        printed framed.segs := by
      rw [callbackUdp, Framed.datagram, hsniff]
    have hrest := ih (callbackUdp framed.datagram.bytePayload packet_cnt).packet_cnt
    rw [seen] at hrest
    rw [List.map_cons, sniffUdp, seen, List.map_append, hrest, hlines, List.map_map,
      List.flatMap_cons]
    rfl

/-- The delays that are loaded after a run: for each offset of a PUSH segment that h1 was seen
to get, in the order in which the offsets were first sent, the time from its first sending to
its first arrival, though the clock may have started anew on the way. -/
theorem loadOwd_generateLog {sent received : List Framed}
    (prompt : ∀ first ∈ firsts (sent.flatMap Framed.pushes) (received.flatMap Framed.pushes),
      Prompt first.1 first.2)
    {tcDelay : Rat} (nonneg : 0 ≤ tcDelay) (packet_cnt packet_cnt' : Nat) :
    List.Forall₂ (Close tcDelay)
      (loadOwd (generateLog .intcp tcDelay
        (sniff (sniffUdp packet_cnt (sent.map Framed.datagram)))
        (sniff (sniffUdp packet_cnt' (received.map Framed.datagram)))))
      (firsts (sent.flatMap Framed.pushes) (received.flatMap Framed.pushes)) := by
  have hsent := seen_sniffUdp packet_cnt sent
  have hreceived := seen_sniffUdp packet_cnt' received
  have hdelays := @loadOwd_captures .intcp (sniffUdp packet_cnt (sent.map Framed.datagram))
    (sniffUdp packet_cnt' (received.map Framed.datagram)) sniffUdp_protocol sniffUdp_protocol
  rw [hsent, hreceived] at hdelays
  exact hdelays prompt nonneg

section Anew

private def fourBytes : IntcpSeg := pushSeg freeClock 1448 1452 4 [61, 62, 63, 64] rfl

private def twoBytes : IntcpSeg := pushSeg freeClock 1452 1454 2 [65, 66] rfl

/-- Both segments leave in one packet just before the clock starts anew, and the second one
again a second later. -/
private def sentAnew : List Framed :=
  [⟨[fourBytes, twoBytes], List.replicate 17 29, by decide, fun _ => 99999997 / 100000⟩,
    ⟨[twoBytes], List.replicate 16 29, by decide, fun _ => 1001⟩]

/-- The first one is lost; the second one arrives twice. -/
private def receivedAnew : List Framed :=
  [⟨[twoBytes], List.replicate 15 29, by decide, fun _ => 100012345 / 100000⟩,
    ⟨[twoBytes], List.replicate 14 29, by decide, fun _ => 1001⟩]

private lemma firsts_anew :
    firsts (sentAnew.flatMap Framed.pushes) (receivedAnew.flatMap Framed.pushes) =
      [(99999997 / 100000, 100012345 / 100000)] := by
  rfl

/-- The delay is 123.48 ms and the 5 ms that the link adds before the packets are seen. -/
theorem loadOwd_generateLog_anew :
    List.Forall₂ (Close 5)
      (loadOwd (generateLog .intcp 5 (sniff (sniffUdp 0 (sentAnew.map Framed.datagram)))
        (sniff (sniffUdp 0 (receivedAnew.map Framed.datagram)))))
      [(99999997 / 100000, 100012345 / 100000)] := by
  have prompt : ∀ first ∈ firsts (sentAnew.flatMap Framed.pushes)
      (receivedAnew.flatMap Framed.pushes), Prompt first.1 first.2 := by
    intro first hfirst
    rw [firsts_anew, List.mem_singleton] at hfirst
    rw [hfirst, Prompt]
    constructor <;> norm_num
  have hdelays := loadOwd_generateLog prompt (by norm_num : (0 : Rat) ≤ 5) 0 0
  rwa [firsts_anew] at hdelays

end Anew

end DelayLog
