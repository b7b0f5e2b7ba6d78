import HexBench.Text.Numeral
import Mathlib.Algebra.Group.Int.Defs
import Mathlib.Algebra.Group.Nat.Defs

set_option autoImplicit false

namespace HexBench.Numeral

structure Digits (digits : List Char) (n : Nat) : Prop where
  ne_nil : digits ≠ []
  isDigit : ∀ c ∈ digits, c.isDigit = true
  value : Nat.ofDigitChars 10 digits 0 = n

def Decimal (text : String) (n : Nat) : Prop :=
  Digits text.toList n ∨ ∃ digits, text.toList = '+' :: digits ∧ Digits digits n

theorem digits_toString (n : Nat) : Digits (toString n).toList n := by
  rw [Nat.toString_eq_ofList_toDigits, String.toList_ofList]
  exact ⟨Nat.toDigits_ne_nil, fun c hc => Nat.isDigit_of_mem_toDigits (by decide) (by decide) hc,
    Nat.ofDigitChars_toDigits (by decide) (by decide)⟩

theorem decimal_toString (n : Nat) : Decimal (toString n) n := .inl (digits_toString n)

theorem Digits.head {c : Char} {rest : List Char} {n : Nat} (h : Digits (c :: rest) n) :
    c.isDigit = true :=
  h.isDigit c (List.mem_cons_self ..)

theorem Digits.lineFeed_notMem {digits : List Char} {n : Nat} (h : Digits digits n) :
    '\n' ∉ digits :=
  fun hmem => absurd (h.isDigit _ hmem) (by decide)

theorem Decimal.lineFeed_notMem {text : String} {n : Nat} (h : Decimal text n) :
    '\n' ∉ text.toList := by
  rcases h with hdigits | ⟨digits, htext, hdigits⟩
  · exact hdigits.lineFeed_notMem
  · rw [htext]
    exact List.not_mem_cons_of_ne_of_not_mem (by decide) hdigits.lineFeed_notMem

theorem digit?_eq (c : Char) :
    digit? c = if c.isDigit then some (c.toNat - '0'.toNat) else none := by
  have hsame : ('0' ≤ c ∧ c ≤ '9') = (c.isDigit = true) := by
    rw [Char.isDigit, Bool.and_eq_true, decide_eq_true_iff, decide_eq_true_iff]
    rfl
  simp only [digit?, hsame]

theorem le_ofDigitChars (digits : List Char) (n : Nat) : n ≤ Nat.ofDigitChars 10 digits n := by
  induction digits generalizing n with
  | nil => exact Nat.le_refl n
  | cons c rest ih =>
    rw [Nat.ofDigitChars_cons]
    have hrest := ih (10 * n + (c.toNat - '0'.toNat))
    omega

/-- Digits only raise a number, so it is within its bounds on the way if it is in the end. -/
theorem readDigits_eq_ok_iff {limit start n : Nat} {overflow : Fault} {digits : List Char}
    (h : start ≤ limit) : readDigits limit overflow start digits = .ok n ↔
      (∀ c ∈ digits, c.isDigit = true) ∧ Nat.ofDigitChars 10 digits start = n ∧ n ≤ limit := by
  induction digits generalizing start with
  | nil =>
    simp only [readDigits, Except.ok.injEq, List.not_mem_nil, false_imp_iff, implies_true,
      true_and, Nat.ofDigitChars_nil]
    exact ⟨fun hn => ⟨hn, hn ▸ h⟩, And.left⟩
  | cons c rest ih =>
    rw [readDigits, digit?_eq, List.forall_mem_cons, Nat.ofDigitChars_cons]
    by_cases hdigit : c.isDigit = true
    · rw [if_pos hdigit]
      dsimp only
      by_cases hlimit : limit < 10 * start + (c.toNat - '0'.toNat)
      · have hraised := le_ofDigitChars rest (10 * start + (c.toNat - '0'.toNat))
        rw [if_pos hlimit]
        exact iff_of_false nofun fun ⟨_, hvalue, hn⟩ => by omega
      · rw [if_neg hlimit, ih (by omega), and_iff_right hdigit]
    · rw [if_neg hdigit]
      exact iff_of_false nofun fun ⟨⟨hc, _⟩, _⟩ => hdigit hc

theorem readMagnitude_eq_ok_iff {limit n : Nat} {overflow : Fault} {digits : List Char} :
    readMagnitude limit overflow digits = .ok n ↔ Digits digits n ∧ n ≤ limit := by
  cases digits with
  | nil => exact iff_of_false nofun fun ⟨hdigits, _⟩ => hdigits.ne_nil rfl
  | cons c rest =>
    rw [readMagnitude, readDigits_eq_ok_iff (Nat.zero_le limit)]
    constructor
    · rintro ⟨hdigits, hvalue, hn⟩
      exact ⟨⟨List.cons_ne_nil c rest, hdigits, hvalue⟩, hn⟩
    · rintro ⟨⟨_, hdigits, hvalue⟩, hn⟩
      exact ⟨hdigits, hvalue, hn⟩

theorem decimal_plus {text : String} {digits : List Char} (h : text.toList = '+' :: digits)
    (n : Nat) : Decimal text n ↔ Digits digits n := by
  constructor
  · rintro (hplain | ⟨more, hmore, hdigits⟩)
    · rw [h] at hplain
      exact absurd hplain.head (by decide)
    · rw [h, List.cons.injEq] at hmore
      exact hmore.2 ▸ hdigits
  · intro hdigits
    exact .inr ⟨digits, h, hdigits⟩

theorem decimal_plain {text : String} (h : ∀ digits, text.toList ≠ '+' :: digits) (n : Nat) :
    Decimal text n ↔ Digits text.toList n :=
  or_iff_left fun ⟨digits, hdigits, _⟩ => h digits hdigits

theorem map_readMagnitude_eq_ok_iff {limit : Nat} {overflow : Fault} {digits : List Char}
    {f : Nat → Int} {i : Int} : (readMagnitude limit overflow digits).map f = .ok i ↔
      ∃ n, i = f n ∧ Digits digits n ∧ n ≤ limit := by
  constructor
  · intro h
    cases hread : readMagnitude limit overflow digits with
    | error e =>
      rw [hread] at h
      cases h
    | ok n =>
      rw [hread] at h
      exact ⟨n, (Except.ok.inj h).symm, readMagnitude_eq_ok_iff.mp hread⟩
  · rintro ⟨n, rfl, hn⟩
    rw [readMagnitude_eq_ok_iff.mpr hn]
    rfl

theorem not_decimal_minus {text : String} {digits : List Char} (h : text.toList = '-' :: digits)
    (n : Nat) : ¬ Decimal text n := by
  rw [decimal_plain (by simp [h]), h]
  intro hdigits
  exact absurd hdigits.head (by decide)

/-- A number is read if and only if the text spells one within the bounds. A minus sign is read if
there are negative numbers, before a zero too. -/
theorem Range.read_eq_ok_iff {r : Range} {text : String} {i : Int} : r.read text = .ok i ↔
    (∃ n : Nat, i = n ∧ Decimal text n ∧ n ≤ r.above) ∨
    r.below ≠ 0 ∧ ∃ digits, text.toList = '-' :: digits ∧
      ∃ n : Nat, i = -n ∧ Digits digits n ∧ n ≤ r.below := by
  rw [Range.read]
  split
  · rename_i hempty
    refine iff_of_false nofun ?_
    rintro (⟨n, _, hn, _⟩ | ⟨_, digits, htext, _⟩)
    · rw [decimal_plain (by simp [hempty]), hempty] at hn
      exact hn.ne_nil rfl
    · rw [hempty] at htext
      cases htext
  · rename_i digits hplus
    have hminus : ¬ ∃ digits, text.toList = '-' :: digits ∧
        ∃ n : Nat, i = -n ∧ Digits digits n ∧ n ≤ r.below := fun ⟨_, htext, _⟩ => by
      rw [hplus] at htext
      cases htext
    simp only [map_readMagnitude_eq_ok_iff, decimal_plus hplus, hminus, and_false, or_false]
    rfl
  · rename_i digits hminus
    have hplain : ¬ ∃ n : Nat, i = n ∧ Decimal text n ∧ n ≤ r.above := fun ⟨n, _, hn, _⟩ =>
      not_decimal_minus hminus n hn
    have hdigits : (∃ digits, text.toList = '-' :: digits ∧
        ∃ n : Nat, i = -n ∧ Digits digits n ∧ n ≤ r.below) ↔
          ∃ n : Nat, i = -n ∧ Digits digits n ∧ n ≤ r.below := by
      rw [hminus]
      simp
    rw [hdigits, or_iff_right hplain]
    split
    · rename_i hbelow
      exact iff_of_false nofun fun h => h.1 hbelow
    · rename_i hbelow
      rw [map_readMagnitude_eq_ok_iff, and_iff_right hbelow]
      rfl
  · rename_i hplus hminus
    have hnone : ¬ ∃ digits, text.toList = '-' :: digits ∧
        ∃ n : Nat, i = -n ∧ Digits digits n ∧ n ≤ r.below := fun ⟨digits, htext, _⟩ =>
      hminus digits htext
    simp only [map_readMagnitude_eq_ok_iff, decimal_plain hplus, hnone, and_false, or_false]
    rfl

theorem readUnsigned_eq_ok_iff {bits n : Nat} {text : String} :
    readUnsigned bits text = .ok n ↔ Decimal text n ∧ n < 2 ^ bits := by
  have hlimit : n ≤ (Range.unsigned bits).above ↔ n < 2 ^ bits :=
    Nat.le_sub_one_iff_lt (Nat.two_pow_pos bits)
  have hunsigned {i : Int} : (Range.unsigned bits).read text = .ok i ↔
      ∃ n : Nat, i = n ∧ Decimal text n ∧ n ≤ (Range.unsigned bits).above := by
    rw [Range.read_eq_ok_iff]
    exact or_iff_left fun h => h.1 rfl
  rw [readUnsigned, ← hlimit]
  constructor
  · intro h
    cases hread : (Range.unsigned bits).read text with
    | error e =>
      rw [hread] at h
      cases h
    | ok i =>
      obtain ⟨m, rfl, hm⟩ := hunsigned.mp hread
      rw [hread] at h
      obtain rfl : m = n := Except.ok.inj h
      exact hm
  · intro h
    rw [hunsigned.mpr ⟨n, rfl, h⟩]
    rfl

/-- The shortest numeral of an integer is read back where the bounds have room for it. -/
theorem Range.read_toString {r : Range} {i : Int} (hbelow : -r.below ≤ i) (habove : i ≤ r.above) :
    r.read (toString i) = .ok i := by
  rw [Range.read_eq_ok_iff]
  cases i with
  | ofNat n => exact .inl ⟨n, rfl, decimal_toString n, by simpa using habove⟩
  | negSucc n =>
    have htext : (toString (Int.negSucc n)).toList = '-' :: (toString (n + 1)).toList := by
      change ("-" ++ toString (n + 1)).toList = _
      rw [String.toList_append]
      rfl
    exact .inr ⟨by omega, _, htext, n + 1, rfl, digits_toString (n + 1), by omega⟩

theorem Range.read_signed_toString {bits : Nat} {i : Int} (hbelow : -2 ^ (bits - 1) ≤ i)
    (habove : i < 2 ^ (bits - 1)) : (Range.signed bits).read (toString i) = .ok i := by
  have hpos := Nat.two_pow_pos (bits - 1)
  have hpow : ((2 ^ (bits - 1) : Nat) : Int) = 2 ^ (bits - 1) := by simp
  refine Range.read_toString ?_ ?_
  · change -((2 ^ (bits - 1) : Nat) : Int) ≤ i
    omega
  · change i ≤ ((2 ^ (bits - 1) - 1 : Nat) : Int)
    omega

end HexBench.Numeral
