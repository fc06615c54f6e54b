import Mathlib.Data.List.Basic
import Mathlib.Data.Rat.Floor
import Mathlib.Tactic.Linarith

/-!
# Text

Searching text and cutting it at places counted from either end, decimal numerals and
their reading, and lines. What a place or a numeral is read from is given by the text
around it, so each lemma says how one piece of the text is passed over or read.
-/

namespace TextScan

abbrev Text := List Char

/-- The first place where `pat` stands. -/
def place? (pat : Text) : Text → Option Nat
  | [] => if pat.isEmpty then some 0 else none
  | c :: cs => if pat.isPrefixOf (c :: cs) then some 0 else (place? pat cs).map (· + 1)

/-- That place, or -1. -/
def find (s pat : Text) : Int := ((place? pat s).map Int.ofNat).getD (-1)

def contains (s pat : Text) : Bool := (place? pat s).isSome

lemma place?_skip {pat : Text} {c : Char} {cs : Text} (other : pat.isPrefixOf (c :: cs) = false) :
    place? pat (c :: cs) = (place? pat cs).map (· + 1) := by
  rw [place?, other]
  rfl

/-- Characters that `pat` does not begin with are passed over. -/
lemma place?_skips {c : Char} {pat passed : Text} (other : ∀ d ∈ passed, d ≠ c) (rest : Text) :
    place? (c :: pat) (passed ++ rest) = (place? (c :: pat) rest).map (· + passed.length) := by
  induction passed with
  | nil => simp
  | cons d passed ih =>
    obtain ⟨hd, hrest⟩ := List.forall_mem_cons.mp other
    have miss : (c :: pat).isPrefixOf (d :: (passed ++ rest)) = false := by
      simp [List.isPrefixOf, hd.symm]
    rw [List.cons_append, place?_skip miss, ih hrest, Option.map_map]
    rfl

lemma find_of_place? {s pat : Text} {i : Nat} (h : place? pat s = some i) : find s pat = i := by
  rw [find, h]
  rfl

lemma contains_of_place? {s pat : Text} {i : Nat} (h : place? pat s = some i) :
    contains s pat = true := by
  rw [contains, h]
  rfl

/-- A place counted from the end where it is negative. -/
def placeOf (s : Text) (i : Int) : Nat := (if i < 0 then i + s.length else i).toNat

/-- `s[i:j]` -/
def cut (s : Text) (i j : Int) : Text := (s.take (placeOf s j)).drop (placeOf s i)

/-- `s[i:]` -/
def cutFrom (s : Text) (i : Int) : Text := s.drop (placeOf s i)

lemma placeOf_nat (s : Text) (i : Nat) : placeOf s i = i := by
  rw [placeOf, if_neg (by omega)]
  rfl

/-- The middle of a text lies between the lengths of what is before it and what is up to its end. -/
lemma cut_middle (before middle after : Text) {s : Text} (h : s = before ++ (middle ++ after))
    {i j : Int} (hi : i = before.length) (hj : j = (before ++ middle).length) : cut s i j = middle := by
  rw [cut, hi, hj, placeOf_nat, placeOf_nat, h, ← List.append_assoc, List.take_left,
    List.drop_left]

lemma cutFrom_end (before after : Text) {s : Text} (h : s = before ++ after) {i : Int}
    (hi : i = before.length) : cutFrom s i = after := by
  rw [cutFrom, hi, placeOf_nat, h, List.drop_left]

def decimal (n : Nat) : Text := Nat.toDigits 10 n

def zeros (width : Nat) (s : Text) : Text := List.replicate (width - s.length) '0' ++ s

/-- `n` units of which `10 ^ places` are one, with `places` places behind the point. -/
def fixed (places n : Nat) : Text :=
  decimal (n / 10 ^ places) ++ '.' :: zeros places (decimal (n % 10 ^ places))

def decimalInt : Int → Text
  | .ofNat n => decimal n
  | .negSucc n => '-' :: decimal (n + 1)

/-- The nearest whole number, the even one of two. -/
def nearest (x : Rat) : Int :=
  if x - ⌊x⌋ < 1 / 2 then ⌊x⌋
  else if 1 / 2 < x - ⌊x⌋ then ⌊x⌋ + 1
  else if ⌊x⌋ % 2 = 0 then ⌊x⌋ else ⌊x⌋ + 1

/-- `x` with this many places behind the point. -/
def format (places : Nat) (x : Rat) : Text :=
  if x < 0 then '-' :: fixed places (nearest (10 ^ places * -x)).toNat
  else fixed places (nearest (10 ^ places * x)).toNat

def strip (s : Text) : Text :=
  ((s.dropWhile Char.isWhitespace).reverse.dropWhile Char.isWhitespace).reverse

def readDigits (s : Text) : Option Nat :=
  if !s.isEmpty && s.all Char.isDigit then some (Nat.ofDigitChars 10 s 0) else none

/-- A whole number, with blanks around it and a sign perhaps. -/
def readInt (s : Text) : Option Int :=
  match strip s with
  | '-' :: digits => (readDigits digits).map fun n : Nat => -(n : Int)
  | '+' :: digits => (readDigits digits).map Int.ofNat
  | digits => (readDigits digits).map Int.ofNat

/-- Digits with a point among them perhaps. -/
def readFraction (s : Text) : Option Rat :=
  let whole := s.takeWhile Char.isDigit
  match s.dropWhile Char.isDigit with
  | [] => (readDigits whole).map fun n : Nat => (n : Rat)
  | c :: part =>
    if c = '.' ∧ part.all Char.isDigit then
      (readDigits (whole ++ part)).map fun n : Nat => (n : Rat) / 10 ^ part.length
    else none

/-- The same with blanks around it and a sign perhaps. -/
def readFloat (s : Text) : Option Rat :=
  match strip s with
  | '-' :: number => (readFraction number).map fun x => -x
  | '+' :: number => readFraction number
  | number => readFraction number

lemma isDigit_decimal {n : Nat} {c : Char} (h : c ∈ decimal n) : c.isDigit = true :=
  Nat.isDigit_of_mem_toDigits (by decide) (by decide) h

lemma decimal_ne_nil (n : Nat) : decimal n ≠ [] := Nat.toDigits_ne_nil

lemma readDigits_decimal (n : Nat) : readDigits (decimal n) = some n := by
  have digits : (decimal n).all Char.isDigit = true :=
    List.all_eq_true.mpr fun c hc => isDigit_decimal hc
  have nonempty : (decimal n).isEmpty = false := by simp [decimal_ne_nil]
  rw [readDigits, digits, nonempty]
  exact congrArg Option.some Nat.ofDigitChars_ten_toDigits

lemma isWhitespace_digit {c : Char} (h : c.isDigit = true) : c.isWhitespace = false := by
  by_contra hblank
  simp only [Char.isWhitespace, Bool.or_eq_true, decide_eq_true_eq, Bool.not_eq_false] at hblank
  rcases hblank with ((rfl | rfl) | rfl) | rfl <;> cases h

lemma dropWhile_solid {s : Text} (solid : ∀ c ∈ s, c.isWhitespace = false) :
    s.dropWhile Char.isWhitespace = s := by
  cases s with
  | nil => rfl
  | cons c cs => rw [List.dropWhile_cons_of_neg (by simp [solid c])]

/-- A text without blanks, and the same at the end of a line. -/
lemma strip_solid {s : Text} (solid : ∀ c ∈ s, c.isWhitespace = false) :
    strip s = s ∧ strip (s ++ ['\n']) = s := by
  have back : ∀ c ∈ s.reverse, c.isWhitespace = false := fun c hc => solid c (List.mem_reverse.mp hc)
  constructor
  · rw [strip, dropWhile_solid solid, dropWhile_solid back, List.reverse_reverse]
  · cases s with
    | nil => decide
    | cons c cs =>
      have front : ((c :: cs) ++ ['\n']).dropWhile Char.isWhitespace = (c :: cs) ++ ['\n'] := by
        rw [List.cons_append, List.dropWhile_cons_of_neg (by simp [solid c])]
      have newline : Char.isWhitespace '\n' = true := by decide
      rw [strip, front, List.reverse_append, List.reverse_singleton, List.singleton_append,
        List.dropWhile_cons_of_pos newline, dropWhile_solid back, List.reverse_reverse]

/-- What begins with a digit has no sign. -/
lemma no_sign {s : Text} {c : Char} {cs : Text} (h : s = c :: cs) (digit : c.isDigit = true) :
    (∀ rest, s ≠ '-' :: rest) ∧ ∀ rest, s ≠ '+' :: rest := by
  constructor
  · rintro rest rfl
    obtain ⟨rfl, -⟩ := List.cons.inj h
    cases digit
  · rintro rest rfl
    obtain ⟨rfl, -⟩ := List.cons.inj h
    cases digit

lemma readInt_decimal (n : Nat) : readInt (decimal n) = some (n : Int) := by
  obtain ⟨c, cs, hdecimal⟩ := List.exists_cons_of_ne_nil (decimal_ne_nil n)
  obtain ⟨minus, plus⟩ :=
    no_sign hdecimal (isDigit_decimal (n := n) (hdecimal ▸ List.mem_cons_self))
  have solid : ∀ d ∈ decimal n, d.isWhitespace = false :=
    fun d hd => isWhitespace_digit (isDigit_decimal hd)
  rw [readInt, (strip_solid solid).1]
  split
  · rename_i h
    exact absurd h (minus _)
  · rename_i h
    exact absurd h (plus _)
  · rw [readDigits_decimal]
    rfl

lemma zeros_digits {width n : Nat} {c : Char} (h : c ∈ zeros width (decimal n)) :
    c.isDigit = true := by
  rcases List.mem_append.mp h with hzero | hdigit
  · rw [List.eq_of_mem_replicate hzero]
    rfl
  · exact isDigit_decimal hdigit

lemma length_zeros {width n : Nat} (pos : 0 < width) (fits : n < 10 ^ width) :
    (zeros width (decimal n)).length = width := by
  have short : (decimal n).length ≤ width := (Nat.length_toDigits_le_iff (by decide) pos).mpr fits
  rw [zeros, List.length_append, List.length_replicate]
  omega

lemma readDigits_fixed (places n : Nat) (pos : 0 < places) :
    readDigits (decimal (n / 10 ^ places) ++ zeros places (decimal (n % 10 ^ places))) = some n := by
  have fits : n % 10 ^ places < 10 ^ places := Nat.mod_lt _ (Nat.pow_pos (by decide))
  have digits : (decimal (n / 10 ^ places) ++ zeros places (decimal (n % 10 ^ places))).all
      Char.isDigit = true := by
    refine List.all_eq_true.mpr fun c hc => ?_
    rcases List.mem_append.mp hc with hc | hc
    · exact isDigit_decimal hc
    · exact zeros_digits hc
  have nonempty : (decimal (n / 10 ^ places) ++ zeros places (decimal (n % 10 ^ places))).isEmpty =
      false := by
    simp [decimal_ne_nil]
  have part : Nat.ofDigitChars 10 (zeros places (decimal (n % 10 ^ places))) 0 = n % 10 ^ places := by
    rw [zeros, Nat.ofDigitChars_append, Nat.ofDigitChars_replicate_zero, Nat.mul_zero]
    exact Nat.ofDigitChars_ten_toDigits
  have whole : Nat.ofDigitChars 10 (decimal (n / 10 ^ places)) 0 = n / 10 ^ places :=
    Nat.ofDigitChars_ten_toDigits
  rw [readDigits, digits, nonempty, Nat.ofDigitChars_append, whole,
    Nat.ofDigitChars_eq_ofDigitChars_zero, part, length_zeros pos fits, Nat.div_add_mod]
  rfl

lemma readFloat_fixed (places n : Nat) (pos : 0 < places) :
    readFloat (fixed places n ++ ['\n']) = some ((n : Rat) / 10 ^ places) := by
  have fits : n % 10 ^ places < 10 ^ places := Nat.mod_lt _ (Nat.pow_pos (by decide))
  obtain ⟨c, cs, hwhole⟩ := List.exists_cons_of_ne_nil (decimal_ne_nil (n / 10 ^ places))
  have hfixed : fixed places n =
      c :: (cs ++ '.' :: zeros places (decimal (n % 10 ^ places))) := by
    rw [fixed, hwhole, List.cons_append]
  have digit : ∀ d ∈ decimal (n / 10 ^ places), d.isDigit = true := fun d hd => isDigit_decimal hd
  obtain ⟨minus, plus⟩ := no_sign hfixed (digit c (hwhole ▸ List.mem_cons_self))
  have solid : ∀ d ∈ fixed places n, d.isWhitespace = false := by
    intro d hd
    rcases List.mem_append.mp hd with hd | hd
    · exact isWhitespace_digit (digit d hd)
    · rcases List.mem_cons.mp hd with rfl | hd
      · decide
      · exact isWhitespace_digit (zeros_digits hd)
  have fraction : readFraction (fixed places n) = some ((n : Rat) / 10 ^ places) := by
    have point : Char.isDigit '.' = false := by decide
    have whole : (fixed places n).takeWhile Char.isDigit = decimal (n / 10 ^ places) := by
      rw [fixed, List.takeWhile_append_of_pos digit, List.takeWhile_cons_of_neg (by simp [point]),
        List.append_nil]
    have rest : (fixed places n).dropWhile Char.isDigit =
        '.' :: zeros places (decimal (n % 10 ^ places)) := by
      rw [fixed, List.dropWhile_append_of_pos digit, List.dropWhile_cons_of_neg (by simp [point])]
    have part : (zeros places (decimal (n % 10 ^ places))).all Char.isDigit = true :=
      List.all_eq_true.mpr fun d hd => zeros_digits hd
    simp only [readFraction, whole, rest, part, readDigits_fixed places n pos,
      length_zeros pos fits, and_self, if_true, Option.map_some]
  rw [readFloat, (strip_solid solid).2]
  split
  · rename_i h
    exact absurd h (minus _)
  · rename_i h
    exact absurd h (plus _)
  · exact fraction

lemma mem_decimalInt {n : Int} {c : Char} (h : c ∈ decimalInt n) : c.isDigit = true ∨ c = '-' := by
  cases n with
  | ofNat n => exact .inl (isDigit_decimal h)
  | negSucc n =>
    rcases List.mem_cons.mp h with rfl | h
    · exact .inr rfl
    · exact .inl (isDigit_decimal h)

lemma newline_decimal (n : Nat) : '\n' ∉ decimal n := by
  intro h
  cases isDigit_decimal h

lemma newline_fixed (places n : Nat) : '\n' ∉ fixed places n := by
  intro h
  rcases List.mem_append.mp h with h | h
  · exact newline_decimal _ h
  · rcases List.mem_cons.mp h with h | h
    · cases h
    · cases zeros_digits h

lemma newline_format (places : Nat) (x : Rat) : '\n' ∉ format places x := by
  rw [format]
  split
  · rw [List.mem_cons, not_or]
    exact ⟨by decide, newline_fixed places _⟩
  · exact newline_fixed places _

lemma nearest_bounds (x : Rat) : x - 1 / 2 ≤ nearest x ∧ (nearest x : Rat) ≤ x + 1 / 2 := by
  have low := Int.floor_le x
  have high := Int.lt_floor_add_one x
  rw [nearest]
  split
  · constructor <;> linarith
  · split
    · push_cast
      constructor <;> linarith
    · split
      · constructor <;> linarith
      · push_cast
        constructor <;> linarith

lemma nearest_mono {x y : Rat} (h : x ≤ y) : nearest x ≤ nearest y := by
  by_contra less
  have apart : (nearest y : Rat) + 1 ≤ nearest x := by exact_mod_cast not_le.mp less
  have hx := (nearest_bounds x).2
  have hy := (nearest_bounds y).1
  have same : x = y := by linarith
  exact less (same ▸ le_rfl)

lemma nearest_nonneg {x : Rat} (h : 0 ≤ x) : 0 ≤ nearest x := by
  have zero : nearest 0 = 0 := by simp [nearest]
  exact zero ▸ nearest_mono h

/-- An even number more. -/
lemma nearest_add_even (x : Rat) (k : Int) : nearest (x + (2 * k : Int)) = nearest x + 2 * k := by
  have floor : ⌊x + (2 * k : Int)⌋ = ⌊x⌋ + 2 * k := Int.floor_add_intCast x (2 * k)
  have part : x + (2 * k : Int) - ((⌊x⌋ + 2 * k : Int) : Rat) = x - ⌊x⌋ := by
    push_cast
    ring
  have even : (⌊x⌋ + 2 * k) % 2 = 0 ↔ ⌊x⌋ % 2 = 0 := by omega
  rw [nearest, floor, part, nearest]
  simp only [even]
  split
  · rfl
  · split
    · ring
    · split
      · rfl
      · ring

lemma readFloat_format (places : Nat) {x : Rat} (h : 0 ≤ x) (pos : 0 < places) :
    readFloat (format places x ++ ['\n']) = some ((nearest (10 ^ places * x) : Rat) / 10 ^ places) := by
  have whole : 0 ≤ nearest (10 ^ places * x) := nearest_nonneg (by positivity)
  have back : (((nearest (10 ^ places * x)).toNat : Nat) : Rat) = nearest (10 ^ places * x) := by
    exact_mod_cast Int.toNat_of_nonneg whole
  rw [format, if_neg (not_lt.mpr h), readFloat_fixed places _ pos, back]

/-- `readlines()`: each line with its end. -/
def readlines : Text → List Text
  | [] => []
  | c :: cs =>
    if c = '\n' then [c] :: readlines cs
    else match readlines cs with
      | [] => [[c]]
      | line :: lines => (c :: line) :: lines

lemma readlines_line {line : Text} (one : '\n' ∉ line) (rest : Text) :
    readlines (line ++ '\n' :: rest) = (line ++ ['\n']) :: readlines rest := by
  induction line with
  | nil => rw [List.nil_append, readlines, if_pos rfl, List.nil_append]
  | cons c line ih =>
    rw [List.mem_cons, not_or] at one
    rw [List.cons_append, readlines, if_neg (Ne.symm one.1), ih one.2]
    rfl

/-- A text of whole lines. -/
lemma readlines_lines {A : Type} {line : A → Text} (one : ∀ a, '\n' ∉ line a) (as : List A) :
    readlines (as.flatMap fun a => line a ++ ['\n']) = as.map fun a => line a ++ ['\n'] := by
  induction as with
  | nil => rfl
  | cons a as ih =>
    rw [List.flatMap_cons, List.append_assoc, List.singleton_append, readlines_line (one a), ih,
      List.map_cons]

end TextScan
