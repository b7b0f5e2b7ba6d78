import HexBench.Wave.Signal
import Mathlib.Algebra.BigOperators.Ring.Finset
import Mathlib.Logic.Function.Basic

set_option autoImplicit false

namespace HexBench.Wave

theorem toNat_codeDigit {n : Nat} (h : n < 94) : (codeDigit n).toNat = n + 33 := by
  have hvalid : (n + 33).isValidChar := .inl (by omega)
  rw [codeDigit, Char.ofNat, dif_pos hvalid]
  rfl

theorem identifier_eq (index : Nat) :
    identifier index = codeDigit (index % 94) ::
      if index < 94 then [] else identifier (index / 94 - 1) := by
  rw [identifier]

theorem identifier_of_lt {index : Nat} (h : index < 94) : identifier index = [codeDigit index] := by
  rw [identifier_eq, if_pos h, Nat.mod_eq_of_lt h]

theorem identifier_ne_nil (index : Nat) : identifier index ≠ [] := by
  rw [identifier_eq]
  exact List.cons_ne_nil _ _

theorem mem_identifier {index : Nat} {c : Char} (h : c ∈ identifier index) :
    ∃ n < 94, c = codeDigit n := by
  induction index using identifier.induct with
  | case1 index ih =>
    rw [identifier_eq, List.mem_cons] at h
    rcases h with rfl | h
    · exact ⟨index % 94, Nat.mod_lt index (by decide), rfl⟩
    · split at h
      · cases h
      · exact ih (by assumption) h

theorem toNat_of_mem_identifier {index : Nat} {c : Char} (h : c ∈ identifier index) :
    33 ≤ c.toNat ∧ c.toNat ≤ 126 := by
  obtain ⟨n, hn, rfl⟩ := mem_identifier h
  rw [toNat_codeDigit hn]
  omega

section Numeration

def indexOf : List Char → Nat
  | [] => 0
  | [c] => c.toNat - 33
  | c :: d :: rest => c.toNat - 33 + 94 * (indexOf (d :: rest) + 1)

/-- Strings of characters from the exclamation mark to the tilde, but for the empty one. -/
def IsCode (code : List Char) : Prop := code ≠ [] ∧ ∀ c ∈ code, '!' ≤ c ∧ c ≤ '~'

theorem indexOf_cons (c : Char) {rest : List Char} (h : rest ≠ []) :
    indexOf (c :: rest) = c.toNat - 33 + 94 * (indexOf rest + 1) := by
  cases rest with
  | nil => exact absurd rfl h
  | cons d rest => rfl

theorem isCode_identifier (index : Nat) : IsCode (identifier index) :=
  ⟨identifier_ne_nil index, fun _ hc => toNat_of_mem_identifier hc⟩

theorem indexOf_identifier (index : Nat) : indexOf (identifier index) = index := by
  induction index using identifier.induct with
  | case1 index ih =>
    by_cases hlast : index < 94
    · rw [identifier_of_lt hlast, indexOf, toNat_codeDigit hlast]
      omega
    · rw [identifier_eq, if_neg hlast, indexOf_cons _ (identifier_ne_nil _), ih hlast,
        toNat_codeDigit (Nat.mod_lt index (by decide))]
      omega

theorem identifier_injective : Function.Injective identifier :=
  Function.LeftInverse.injective indexOf_identifier

theorem codeDigit_of_mem {code : List Char} (h : IsCode code) {c : Char} (hc : c ∈ code) :
    c.toNat - 33 < 94 ∧ codeDigit (c.toNat - 33) = c := by
  obtain ⟨hlow, hhigh⟩ : 33 ≤ c.toNat ∧ c.toNat ≤ 126 := h.2 c hc
  refine ⟨by omega, ?_⟩
  rw [codeDigit, Nat.sub_add_cancel hlow, Char.ofNat_toNat]

theorem identifier_indexOf {code : List Char} (h : IsCode code) :
    identifier (indexOf code) = code := by
  induction code with
  | nil => exact absurd rfl h.1
  | cons c rest ih =>
    obtain ⟨hdigit, hback⟩ := codeDigit_of_mem h (List.mem_cons_self ..)
    cases rest with
    | nil => rw [indexOf, identifier_of_lt hdigit, hback]
    | cons d rest =>
      have hrest : IsCode (d :: rest) :=
        ⟨List.cons_ne_nil d rest, fun e he => h.2 e (List.mem_cons_of_mem c he)⟩
      have hlow : (c.toNat - 33 + 94 * (indexOf (d :: rest) + 1)) % 94 = c.toNat - 33 := by omega
      have hhigh : (c.toNat - 33 + 94 * (indexOf (d :: rest) + 1)) / 94 - 1 =
          indexOf (d :: rest) := by omega
      rw [indexOf, identifier_eq, if_neg (by omega), hlow, hhigh, hback, ih hrest]

theorem length_identifier_le_iff (index n : Nat) :
    (identifier index).length ≤ n ↔ index < ∑ k ∈ Finset.range n, 94 ^ (k + 1) := by
  induction n generalizing index with
  | zero =>
    have hpos := List.length_pos_iff.mpr (identifier_ne_nil index)
    simp only [Finset.range_zero, Finset.sum_empty, Nat.not_lt_zero, iff_false]
    omega
  | succ n ih =>
    have hsum : ∑ k ∈ Finset.range (n + 1), 94 ^ (k + 1) =
        94 * (∑ k ∈ Finset.range n, 94 ^ (k + 1)) + 94 := by
      rw [Finset.sum_range_succ', Finset.mul_sum]
      simp only [Nat.pow_succ, Nat.pow_zero, Nat.mul_comm]
    rw [hsum]
    by_cases hlast : index < 94
    · rw [identifier_of_lt hlast, List.length_singleton]
      omega
    · have hrest := ih (index / 94 - 1)
      rw [identifier_eq, if_neg hlast, List.length_cons]
      omega

end Numeration

section Loop

def previous? (index : UInt64) : Option UInt64 :=
  if index = 0 then none else some (index - 1)

/-- The codes by a loop on a 64-bit index, of so many rounds at most. There is no result where it
would need more of them, or an index below zero. -/
def codeLoop (rounds : Nat) (code : List Char) (index : UInt64) : Option (List Char) :=
  match rounds with
  | 0 => none
  | rounds + 1 =>
    let code := code ++ [Char.ofUInt8 (33 + (index % 94).toUInt8)]
    let rest := index / 94
    if rest = 0 then some code
    else (previous? rest).bind fun index => codeLoop rounds code index

theorem ofUInt8_lowest (index : UInt64) :
    Char.ofUInt8 (33 + (index % 94).toUInt8) = codeDigit (index.toNat % 94) := by
  have hdigit : index.toNat % 94 < 94 := Nat.mod_lt _ (by decide)
  have hbyte : (33 + (index % 94).toUInt8).toNat = index.toNat % 94 + 33 := by
    simp only [UInt8.toNat_add, UInt64.toNat_toUInt8, UInt64.toNat_mod, UInt8.reduceToNat,
      UInt64.reduceToNat]
    omega
  apply Char.toNat_inj.mp
  rw [toNat_codeDigit hdigit, ← hbyte]
  rfl

theorem codeLoop_eq (rounds : Nat) (code : List Char) (index : UInt64)
    (h : (identifier index.toNat).length ≤ rounds) :
    codeLoop rounds code index = some (code ++ identifier index.toNat) := by
  induction rounds generalizing code index with
  | zero => exact absurd (List.length_eq_zero_iff.mp (Nat.le_zero.mp h)) (identifier_ne_nil _)
  | succ rounds ih =>
    have hdiv : (index / 94).toNat = index.toNat / 94 := UInt64.toNat_div index 94
    rw [codeLoop, ofUInt8_lowest]
    by_cases hlast : index.toNat < 94
    · have hzero : index / 94 = 0 := UInt64.toNat_inj.mp (hdiv.trans (Nat.div_eq_of_lt hlast))
      rw [if_pos hzero, Nat.mod_eq_of_lt hlast, identifier_of_lt hlast]
    · have hone : 1 ≤ index / 94 := by
        rw [UInt64.le_iff_toNat_le, hdiv]
        change 1 ≤ index.toNat / 94
        omega
      have hmore : index / 94 ≠ 0 := by
        intro hzero
        rw [hzero] at hone
        exact absurd hone (by decide)
      have hprevious : (index / 94 - 1).toNat = index.toNat / 94 - 1 := by
        rw [UInt64.toNat_sub_of_le _ _ hone, hdiv]
        rfl
      rw [identifier_eq, if_neg hlast, List.length_cons, ← hprevious] at h
      rw [if_neg hmore, previous?, if_neg hmore, Option.bind_some, ih _ _ (by omega), hprevious,
        List.append_assoc, List.singleton_append, identifier_eq index.toNat, if_neg hlast]

end Loop

/-- The codes are a bijective numeration. For every 64-bit index the loop ends within ten rounds
with the code of the index, and never counts back from zero. Each code is a string of characters
from the exclamation mark to the tilde that is not empty; no two indices share one; the indices
below `94 + 94 ^ 2 + ⋯ + 94 ^ n` are those with a code of at most `n` characters; and each such
string is the code of exactly one index. -/
theorem identifier_numeration :
    (∀ index : UInt64, codeLoop 10 [] index = some (identifier index.toNat)) ∧
    (∀ index, identifier index ≠ [] ∧ ∀ c ∈ identifier index, '!' ≤ c ∧ c ≤ '~') ∧
    (∀ i j, i ≠ j → identifier i ≠ identifier j) ∧
    (∀ index n, (identifier index).length ≤ n ↔ index < ∑ k ∈ Finset.range n, 94 ^ (k + 1)) ∧
    ∀ code : List Char, code ≠ [] → (∀ c ∈ code, '!' ≤ c ∧ c ≤ '~') →
      ∃! index, identifier index = code := by
  refine ⟨?_, isCode_identifier, fun i j => mt (@identifier_injective i j),
    length_identifier_le_iff, ?_⟩
  · intro index
    have htop : UInt64.size ≤ ∑ k ∈ Finset.range 10, 94 ^ (k + 1) := by decide
    have hlength := (length_identifier_le_iff index.toNat 10).mpr
      (Nat.lt_of_lt_of_le index.toNat_lt htop)
    exact codeLoop_eq 10 [] index hlength
  · intro code hne hchars
    have hcode : identifier (indexOf code) = code := identifier_indexOf ⟨hne, hchars⟩
    exact ⟨indexOf code, hcode, fun index hindex => identifier_injective (hindex.trans hcode.symm)⟩

/-- The last code of two characters, and the one behind it. -/
theorem identifier_numeration_carry :
    let code := ['~', '~']
    8930 = ∑ k ∈ Finset.range 2, 94 ^ (k + 1) ∧ code ≠ [] ∧ (∀ c ∈ code, '!' ≤ c ∧ c ≤ '~') ∧
      (∃! index, identifier index = code) ∧ identifier 8929 = code ∧
      identifier 8930 = ['!', '!', '!'] := by
  intro code
  obtain ⟨hloop, _, _, _, hexists⟩ := identifier_numeration
  have hne : code ≠ [] := by decide
  have hchars : ∀ c ∈ code, '!' ≤ c ∧ c ≤ '~' := by
    intro c hc
    obtain rfl : c = '~' := List.eq_of_mem_replicate (n := 2) hc
    decide
  have hlast : identifier (UInt64.toNat 8929) = code :=
    Option.some.inj ((hloop 8929).symm.trans (by decide))
  have hnext : identifier (UInt64.toNat 8930) = ['!', '!', '!'] :=
    Option.some.inj ((hloop 8930).symm.trans (by decide))
  simp only [UInt64.reduceToNat] at hlast hnext
  exact ⟨by decide, hne, hchars, hexists code hne hchars, hlast, hnext⟩

end HexBench.Wave
