import ForthElf.Proofs.Spelling
import Mathlib.Data.Nat.Digits.Defs

/-!
# What number literals denote

A literal is written with a sign, a mark of its radix and digits, whose weights are the powers of the radix.

* `Literal.Spells text v` — `text` is shaped like a number and denotes the integer `v`;
* `Literal.Writes text v` — `text` is a decimal or hexadecimal text of `v`, with any number of leading zeros;
* `Literal.readInteger?_eq_some_iff` — **reading finds exactly the integers that texts denote**, of any size;
* `ofText_eq_number_iff` — a number is never taken for a keyword;
* `literals_exact` — **a literal is the cell of the integer it denotes**, or out of range.
-/

namespace ForthElf

open Text

namespace Literal

/-! ### Digits -/

/-- The digits in the order of their values. -/
def alphabet : List Char :=
  ['0', '1', '2', '3', '4', '5', '6', '7', '8', '9', 'a', 'b', 'c', 'd', 'e', 'f']

/-- The value of a digit in either letter case. -/
def weight (c : Char) : Nat :=
  alphabet.idxOf c.toLower

/-- The digits of a radix are the first ones of the alphabet. -/
def IsDigit (radix : Nat) (c : Char) : Prop :=
  c.toLower ∈ alphabet.take radix

/-- The number that digits denote: the last one counts ones. -/
def denoted (radix : Nat) (digits : List Char) : Nat :=
  Nat.ofDigits radix (digits.map weight).reverse

theorem hexValue?_eq_some {c : Char} (h : c.toLower ∈ alphabet) : hexValue? c = some (weight c) := by
  rw [← hexValue?_toLower, weight]
  generalize c.toLower = d at h
  simp only [alphabet, List.mem_cons, List.not_mem_nil, or_false] at h
  rcases h with rfl | rfl | rfl | rfl | rfl | rfl | rfl | rfl | rfl | rfl | rfl | rfl | rfl | rfl | rfl | rfl <;> rfl

theorem mem_alphabet_of_toNat {d : Char} (h : 48 ≤ d.toNat ∧ d.toNat ≤ 57 ∨ 97 ≤ d.toNat ∧ d.toNat ≤ 102) :
    d ∈ alphabet := by
  have hall : ∀ n < 103, 48 ≤ n ∧ n ≤ 57 ∨ 97 ≤ n ∧ n ≤ 102 → Char.ofNat n ∈ alphabet := by decide
  rw [← Char.ofNat_toNat d]
  exact hall d.toNat (by omega) h

theorem hexValue?_eq_none {c : Char} (h : c.toLower ∉ alphabet) : hexValue? c = none := by
  have hle : ∀ a b : Char, a ≤ b ↔ a.toNat ≤ b.toNat := fun _ _ => Iff.rfl
  have hdigit : ¬(48 ≤ c.toLower.toNat ∧ c.toLower.toNat ≤ 57) := fun hd => h (mem_alphabet_of_toNat (.inl hd))
  have hletter : ¬(97 ≤ c.toLower.toNat ∧ c.toLower.toNat ≤ 102) := fun hd => h (mem_alphabet_of_toNat (.inr hd))
  have hupper : ¬(65 ≤ c.toLower.toNat ∧ c.toLower.toNat ≤ 70) := by
    rw [toNat_toLower]
    split <;> omega
  rw [← hexValue?_toLower, hexValue?, if_neg, if_neg, if_neg]
  · exact hupper
  · exact hletter
  · exact hdigit

theorem digitValue?_eq_some {radix : Nat} {c : Char} (h : IsDigit radix c) : digitValue? radix c = some (weight c) := by
  have hmem : c.toLower ∈ alphabet := List.mem_of_mem_take h
  have hlt : weight c < radix := (List.mem_take_iff_idxOf_lt hmem).mp h
  rw [digitValue?, hexValue?_eq_some hmem, Option.filter_some, if_pos (by simpa using hlt)]

theorem digitValue?_eq_none {radix : Nat} {c : Char} (h : ¬IsDigit radix c) : digitValue? radix c = none := by
  by_cases hmem : c.toLower ∈ alphabet
  · have hlt : ¬weight c < radix := fun hlt => h ((List.mem_take_iff_idxOf_lt hmem).mpr hlt)
    rw [digitValue?, hexValue?_eq_some hmem, Option.filter_some, if_neg (by simpa using hlt)]
  · rw [digitValue?, hexValue?_eq_none hmem]
    rfl

/-! ### Numbers -/

theorem denoted_cons (radix : Nat) (c : Char) (digits : List Char) :
    denoted radix (c :: digits) = denoted radix digits + radix ^ digits.length * weight c := by
  rw [denoted, List.map_cons, Nat.ofDigits_reverse_cons, List.length_map]
  rfl

theorem denoted_append (radix : Nat) (a b : List Char) :
    denoted radix (a ++ b) = denoted radix b + radix ^ b.length * denoted radix a := by
  rw [denoted, List.map_append, List.reverse_append, Nat.ofDigits_append, List.length_reverse, List.length_map]
  rfl

@[simp] theorem denoted_nil (radix : Nat) : denoted radix [] = 0 := rfl

/-- Reading on adds the number that the digits denote to what is there, moved by as many places. -/
theorem readMore?_eq_some_iff {radix value n : Nat} {digits : List Char} :
    readMore? radix value digits = some n ↔
      (∀ c ∈ digits, IsDigit radix c) ∧ n = radix ^ digits.length * value + denoted radix digits := by
  induction digits generalizing value with
  | nil => simp [readMore?, eq_comm]
  | cons c digits ih =>
    rw [readMore?]
    by_cases hc : IsDigit radix c
    · have hsum : radix ^ digits.length * (radix * value + weight c) + denoted radix digits =
          radix ^ (c :: digits).length * value + denoted radix (c :: digits) := by
        rw [denoted_cons, List.length_cons, Nat.pow_succ]
        ring
      rw [digitValue?_eq_some hc]
      simp only [ih, hsum, List.forall_mem_cons, hc, true_and]
    · rw [digitValue?_eq_none hc]
      simp [hc]

theorem readDigits?_eq_some_iff {radix n : Nat} {digits : List Char} :
    readDigits? radix digits = some n ↔
      digits ≠ [] ∧ (∀ c ∈ digits, IsDigit radix c) ∧ n = denoted radix digits := by
  rw [readDigits?]
  cases digits with
  | nil => simp
  | cons c digits =>
    rw [if_neg (by simp), readMore?_eq_some_iff, Nat.mul_zero, Nat.zero_add]
    simp

/-! ### The shape of a number -/

/-- What marks a radix. -/
inductive Mark : List Char → Nat → Prop where
  | decimal : Mark [] 10
  | hexadecimal {x : Char} (hx : x = 'x' ∨ x = 'X') : Mark ['0', x] 16

/-- A text without sign denotes a number: the mark of a radix, and then one or more of its digits. -/
inductive Magnitude : List Char → Nat → Prop where
  | mk {mark digits : List Char} {radix : Nat} (hmark : Mark mark radix) (hne : digits ≠ [])
    (hdigits : ∀ c ∈ digits, IsDigit radix c) : Magnitude (mark ++ digits) (denoted radix digits)

/-- A text denotes an integer: a magnitude, perhaps behind a single minus sign. -/
inductive Spells : List Char → Int → Prop where
  | plain {body : List Char} {n : Nat} (h : Magnitude body n) : Spells body n
  | negative {body : List Char} {n : Nat} (h : Magnitude body n) : Spells ('-' :: body) (-n)

theorem not_isDigit_ten_x {x : Char} (hx : x = 'x' ∨ x = 'X') : ¬IsDigit 10 x := by
  rcases hx with rfl | rfl <;> (unfold IsDigit; decide)

theorem not_isDigit_minus (radix : Nat) : ¬IsDigit radix '-' := fun h =>
  absurd (List.mem_of_mem_take h) (by decide)

/-- A text with the mark of hexadecimal numbers is not a decimal one. -/
theorem readMagnitude?_mark {x : Char} (hx : x = 'x' ∨ x = 'X') (cs : List Char) :
    readMagnitude? ('0' :: x :: cs) = readDigits? 16 cs := by
  rw [readMagnitude?_cons_cons, if_pos ⟨rfl, hx⟩]

theorem readMagnitude?_digits {cs : List Char} (h : ∀ c ∈ cs, IsDigit 10 c) :
    readMagnitude? cs = readDigits? 10 cs := by
  rcases cs with _ | ⟨c, _ | ⟨d, cs⟩⟩
  · rfl
  · unfold readMagnitude?
    split <;> simp_all
  · rw [readMagnitude?_cons_cons, if_neg]
    rintro ⟨-, hd⟩
    exact not_isDigit_ten_x hd (h d (by simp))

theorem readMagnitude?_eq_some_iff {cs : List Char} {n : Nat} : readMagnitude? cs = some n ↔ Magnitude cs n := by
  constructor
  · intro h
    -- The definition looks for the two spellings of the mark first.
    unfold readMagnitude? at h
    split at h
    · obtain ⟨hne, hdigits, rfl⟩ := readDigits?_eq_some_iff.mp h
      exact .mk (.hexadecimal (.inl rfl)) hne hdigits
    · obtain ⟨hne, hdigits, rfl⟩ := readDigits?_eq_some_iff.mp h
      exact .mk (.hexadecimal (.inr rfl)) hne hdigits
    · obtain ⟨hne, hdigits, rfl⟩ := readDigits?_eq_some_iff.mp h
      exact .mk .decimal hne hdigits
  · rintro ⟨hmark, hne, hdigits⟩
    cases hmark with
    | decimal =>
      rw [List.nil_append, readMagnitude?_digits hdigits]
      exact readDigits?_eq_some_iff.mpr ⟨hne, hdigits, rfl⟩
    | hexadecimal hx =>
      rw [List.cons_append, List.singleton_append, readMagnitude?_mark hx]
      exact readDigits?_eq_some_iff.mpr ⟨hne, hdigits, rfl⟩

theorem Magnitude.exists_cons {cs : List Char} {n : Nat} (h : Magnitude cs n) : ∃ c rest, cs = c :: rest ∧ c ≠ '-' := by
  obtain ⟨hmark, hne, hdigits⟩ := h
  cases hmark with
  | hexadecimal _ => exact ⟨'0', _, rfl, by decide⟩
  | decimal =>
    obtain ⟨c, rest, rfl⟩ := List.exists_cons_of_ne_nil hne
    refine ⟨c, rest, rfl, ?_⟩
    rintro rfl
    exact not_isDigit_minus 10 (hdigits '-' List.mem_cons_self)

/-- **Reading finds exactly the integers that texts denote.** -/
theorem readInteger?_eq_some_iff {cs : List Char} {v : Int} : readInteger? cs = some v ↔ Spells cs v := by
  constructor
  · intro h
    unfold readInteger? at h
    split at h
    · next body =>
      obtain ⟨n, hn, rfl⟩ : ∃ n, readMagnitude? body = some n ∧ -(n : Int) = v := by
        simpa [Option.bind_eq_some_iff] using h
      exact .negative (readMagnitude?_eq_some_iff.mp hn)
    · obtain ⟨n, hn, rfl⟩ : ∃ n, readMagnitude? cs = some n ∧ (n : Int) = v := by
        simpa [Option.bind_eq_some_iff] using h
      exact .plain (readMagnitude?_eq_some_iff.mp hn)
  · intro h
    cases h with
    | negative h =>
      rw [readInteger?_cons, if_pos rfl, readMagnitude?_eq_some_iff.mpr h]
      rfl
    | plain h =>
      obtain ⟨c, rest, rfl, hc⟩ := h.exists_cons
      rw [readInteger?_cons, if_neg hc, readMagnitude?_eq_some_iff.mpr h]
      rfl

/-! ### The literal of a text -/

def Fits (v : Int) : Prop :=
  -2 ^ 63 ≤ v ∧ v < 2 ^ 63

theorem parse?_of_spells {s : String} {v : Int} (h : Spells s.toList v) : parse? s = some (ofInt v) := by
  rw [parse?, readInteger?_eq_some_iff.mpr h]
  rfl

theorem ofInt_of_fits {v : Int} (h : Fits v) : ofInt v = .cell (BitVec.ofInt 64 v) :=
  if_pos h

theorem ofInt_of_not_fits {v : Int} (h : ¬Fits v) : ofInt v = .outOfRange :=
  if_neg h

theorem toInt_ofInt_of_fits {v : Int} (h : Fits v) : (BitVec.ofInt 64 v).toInt = v := by
  obtain ⟨hlow, hhigh⟩ := h
  exact BitVec.toInt_ofInt_eq_self (by decide) (by simpa using hlow) (by simpa using hhigh)

theorem fits_toInt (value : BitVec 64) : Fits value.toInt :=
  ⟨value.le_toInt, value.toInt_lt⟩

/-! ### Texts of an integer -/

def sign (v : Int) : List Char :=
  if v < 0 then ['-'] else []

/-- The texts of an integer: decimal, or hexadecimal with letters of either case; zeros may lead. -/
inductive Writes (v : Int) : List Char → Prop where
  | decimal (zeros : Nat) : Writes v (sign v ++ (List.replicate zeros '0' ++ Nat.toDigits 10 v.natAbs))
  | hexadecimal {x : Char} {digits : List Char} (hx : x = 'x' ∨ x = 'X') (zeros : Nat)
    (hdigits : digits.map Char.toLower = Nat.toDigits 16 v.natAbs) :
    Writes v (sign v ++ (['0', x] ++ (List.replicate zeros '0' ++ digits)))

theorem weight_digitChar {d : Nat} (h : d < 16) : weight d.digitChar = d := by
  have hall : ∀ d < 16, weight (Nat.digitChar d) = d := by decide
  exact hall d h

theorem isDigit_digitChar {radix d : Nat} (hradix : radix ≤ 16) (h : d < radix) : IsDigit radix d.digitChar := by
  have hmem : d.digitChar.toLower ∈ alphabet := by
    have hall : ∀ d < 16, (Nat.digitChar d).toLower ∈ alphabet := by decide
    exact hall d (by omega)
  refine (List.mem_take_iff_idxOf_lt hmem).mpr ?_
  show weight d.digitChar < radix
  rw [weight_digitChar (by omega)]
  exact h

theorem toDigits_denotes {radix : Nat} (hone : 1 < radix) (hradix : radix ≤ 16) (n : Nat) :
    (∀ c ∈ Nat.toDigits radix n, IsDigit radix c) ∧ denoted radix (Nat.toDigits radix n) = n := by
  induction n using Nat.strongRecOn with
  | ind n ih =>
    rw [Nat.toDigits_eq_if hone]
    split
    · next hlt =>
      refine ⟨fun c hc => ?_, ?_⟩
      · rw [List.mem_singleton.mp hc]
        exact isDigit_digitChar hradix hlt
      · rw [denoted_cons, denoted_nil, weight_digitChar (by omega)]
        simp
    · next hge =>
      have hmod : n % radix < radix := Nat.mod_lt n (by omega)
      obtain ⟨hdigits, hdenoted⟩ := ih (n / radix) (Nat.div_lt_self (by omega) hone)
      refine ⟨fun c hc => ?_, ?_⟩
      · rcases List.mem_append.mp hc with hc | hc
        · exact hdigits c hc
        · rw [List.mem_singleton.mp hc]
          exact isDigit_digitChar hradix hmod
      · rw [denoted_append, hdenoted, denoted_cons, denoted_nil, weight_digitChar (by omega)]
        have := Nat.mod_add_div n radix
        simpa using this

theorem toLower_toLower (c : Char) : c.toLower.toLower = c.toLower := by
  rw [← Char.toNat_inj, toNat_toLower c.toLower, if_neg]
  rw [toNat_toLower]
  split <;> omega

theorem denotes_of_map_toLower (radix : Nat) {digits lower : List Char} (h : digits.map Char.toLower = lower) :
    ((∀ c ∈ digits, IsDigit radix c) ↔ ∀ c ∈ lower, IsDigit radix c) ∧ denoted radix digits = denoted radix lower := by
  subst h
  refine ⟨?_, ?_⟩
  · rw [List.forall_mem_map]
    simp only [IsDigit, toLower_toLower]
  · have hweight : weight ∘ Char.toLower = weight := by
      funext c
      simp only [Function.comp_apply, weight, toLower_toLower]
    rw [denoted, denoted, List.map_map, hweight]

theorem denotes_replicate_append {radix : Nat} (hpos : 0 < radix) (zeros : Nat) (digits : List Char) :
    ((∀ c ∈ List.replicate zeros '0' ++ digits, IsDigit radix c) ↔ ∀ c ∈ digits, IsDigit radix c) ∧
      denoted radix (List.replicate zeros '0' ++ digits) = denoted radix digits := by
  have hzero : IsDigit radix '0' := (List.mem_take_iff_idxOf_lt (a := '0'.toLower) (by decide)).mpr hpos
  refine ⟨?_, ?_⟩
  · rw [List.forall_mem_append]
    exact and_iff_right fun c hc => by rwa [List.eq_of_mem_replicate hc]
  · have hzeros : denoted radix (List.replicate zeros '0') = 0 := by
      rw [denoted, List.map_replicate, List.reverse_replicate]
      exact Nat.ofDigits_replicate_zero
    rw [denoted_append, hzeros, Nat.mul_zero, Nat.add_zero]

theorem spells_sign_append {v : Int} {body : List Char} (h : Magnitude body v.natAbs) : Spells (sign v ++ body) v := by
  unfold sign
  split
  · have hv : -(v.natAbs : Int) = v := by omega
    exact hv ▸ Spells.negative h
  · have hv : (v.natAbs : Int) = v := by omega
    exact hv ▸ Spells.plain h

/-- **A text of an integer denotes it.** -/
theorem Writes.spells {v : Int} {text : List Char} (h : Writes v text) : Spells text v := by
  cases h with
  | decimal zeros =>
    obtain ⟨hdigits, hdenoted⟩ := toDigits_denotes (by decide : 1 < 10) (by decide) v.natAbs
    obtain ⟨hzeros, hsame⟩ := denotes_replicate_append (by decide : 0 < 10) zeros (Nat.toDigits 10 v.natAbs)
    have hne : List.replicate zeros '0' ++ Nat.toDigits 10 v.natAbs ≠ [] := by simp [Nat.toDigits_ne_nil]
    refine spells_sign_append ?_
    have hmagnitude := Magnitude.mk .decimal hne (hzeros.mpr hdigits)
    rwa [hsame, hdenoted] at hmagnitude
  | @hexadecimal x digits hx zeros hcase =>
    obtain ⟨hdigits, hdenoted⟩ := toDigits_denotes (by decide : 1 < 16) (by decide) v.natAbs
    obtain ⟨hlower, hsame⟩ := denotes_of_map_toLower 16 hcase
    obtain ⟨hzeros, hsame'⟩ := denotes_replicate_append (by decide : 0 < 16) zeros digits
    have hne : List.replicate zeros '0' ++ digits ≠ [] := by
      have : digits ≠ [] := by
        rintro rfl
        exact Nat.toDigits_ne_nil hcase.symm
      simp [this]
    refine spells_sign_append ?_
    have hmagnitude := Magnitude.mk (.hexadecimal hx) hne (hzeros.mpr (hlower.mpr hdigits))
    rwa [hsame', hsame, hdenoted] at hmagnitude

end Literal

/-! ### The class of a number -/

/-- No keyword is shaped like a number. -/
theorem lookup?_eq_none_of_parse? {s : String} {literal : Literal} (h : Literal.parse? s = some literal) :
    Keyword.lookup? s = none := by
  refine List.find?_eq_none.mpr fun keyword _ hsame => ?_
  have hspelling : Literal.parse? keyword.spelling = none := by cases keyword <;> rfl
  rw [Literal.parse?, ← readInteger?_map_toLower, sameWord_iff_map.mp hsame, readInteger?_map_toLower,
    ← Literal.parse?, h] at hspelling
  cases hspelling

/-- **A word is a number** exactly if it is a literal. -/
theorem ofText_eq_number_iff {s : String} {literal : Literal} :
    TokenClass.ofText s = .number literal ↔ Literal.parse? s = some literal := by
  unfold TokenClass.ofText
  constructor
  · intro h
    split at h
    · cases h
    · split at h
      · next hparse =>
        cases h
        exact hparse
      · cases h
  · intro h
    rw [lookup?_eq_none_of_parse? h, h]

/-! ### Literals -/

open Literal

/-- **Number literals.**  A word is a literal exactly if it is shaped like a number.  It then denotes one integer, and
is the cell of that integer if it fits one.  Every decimal and hexadecimal text of a cell is a number with the value of
the cell. -/
theorem literals_exact (s : String) :
    (Literal.parse? s = none ↔ ¬∃ v, Spells s.toList v) ∧
      (∀ v, Spells s.toList v →
        (∀ w, Spells s.toList w → w = v) ∧
        (Fits v → ∃ value, Literal.parse? s = some (.cell value) ∧ value.toInt = v) ∧
        (¬Fits v → Literal.parse? s = some .outOfRange)) ∧
      ∀ value : BitVec 64, Writes value.toInt s.toList →
        Literal.parse? s = some (.cell value) ∧ TokenClass.ofText s = .number (.cell value) := by
  refine ⟨?_, fun v hv => ⟨fun w hw => ?_, fun hfits => ?_, fun hfits => ?_⟩, fun value hvalue => ?_⟩
  · rw [Literal.parse?, Option.map_eq_none_iff, Option.eq_none_iff_forall_ne_some, not_exists]
    exact forall_congr' fun v => not_congr readInteger?_eq_some_iff
  · have hv' := readInteger?_eq_some_iff.mpr hv
    rw [readInteger?_eq_some_iff.mpr hw] at hv'
    exact Option.some.inj hv'
  · exact ⟨_, by rw [parse?_of_spells hv, ofInt_of_fits hfits], toInt_ofInt_of_fits hfits⟩
  · rw [parse?_of_spells hv, ofInt_of_not_fits hfits]
  · have hparse : Literal.parse? s = some (.cell value) := by
      rw [parse?_of_spells hvalue.spells, ofInt_of_fits (fits_toInt value), BitVec.ofInt_toInt]
    exact ⟨hparse, ofText_eq_number_iff.mpr hparse⟩

/-- A hexadecimal text with zeros and letters of both cases, a number that needs more than 128 bits with its sign, and
the least cell. -/
theorem literals_exact_mixed :
    (Writes (BitVec.ofInt 64 (-0xabcdef)).toInt "-0X00aBcDeF".toList ∧
      Literal.parse? "-0X00aBcDeF" = some (.cell (BitVec.ofInt 64 (-0xabcdef))) ∧
      TokenClass.ofText "-0X00aBcDeF" = .number (.cell (BitVec.ofInt 64 (-0xabcdef)))) ∧
      (Spells "170141183460469231731687303715884105728".toList (2 ^ 127) ∧ ¬Fits (2 ^ 127) ∧
        Literal.parse? "170141183460469231731687303715884105728" = some .outOfRange) ∧
      (Spells "-9223372036854775808".toList (-2 ^ 63) ∧ Fits (-2 ^ 63) ∧
        ∃ value, Literal.parse? "-9223372036854775808" = some (.cell value) ∧ value.toInt = -2 ^ 63) := by
  have hwrites : Writes (BitVec.ofInt 64 (-0xabcdef)).toInt "-0X00aBcDeF".toList :=
    @Writes.hexadecimal _ 'X' "aBcDeF".toList (.inr rfl) 2 (by decide)
  have hlarge : Spells "170141183460469231731687303715884105728".toList (2 ^ 127) :=
    readInteger?_eq_some_iff.mp (by decide)
  have hleast : Spells "-9223372036854775808".toList (-2 ^ 63) := readInteger?_eq_some_iff.mp (by decide)
  have hout : ¬Fits (2 ^ 127) := by unfold Fits; decide
  have hfits : Fits (-2 ^ 63) := by unfold Fits; decide
  exact ⟨⟨hwrites, (literals_exact _).2.2 _ hwrites⟩, ⟨hlarge, hout, ((literals_exact _).2.1 _ hlarge).2.2 hout⟩,
    hleast, hfits, ((literals_exact _).2.1 _ hleast).2.1 hfits⟩

end ForthElf
