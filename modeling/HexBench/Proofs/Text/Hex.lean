import HexBench.Text.Hex
import Mathlib.Tactic.SplitIfs

set_option autoImplicit false

namespace HexBench.Hex

def digitChar (upper : Bool) (n : Nat) : UInt8 :=
  if n < 10 then UInt8.ofNat (48 + n) else UInt8.ofNat ((if upper then 55 else 87) + n)

inductive Spells : Bytes → Bytes → Prop where
  | nil : Spells [] []
  | cons (upperHigh upperLow : Bool) (b : UInt8) {field bytes : Bytes} (tail : Spells field bytes) :
      Spells (digitChar upperHigh (b.toNat / 16) :: digitChar upperLow (b.toNat % 16) :: field)
        (b :: bytes)

theorem digit?_digitChar (upper : Bool) (n : Nat) (hn : n < 16) :
    digit? (digitChar upper n) = some (UInt8.ofNat n) := by
  have all : ∀ upper : Bool, ∀ n ∈ List.range 16,
      digit? (digitChar upper n) = some (UInt8.ofNat n) := by decide
  exact all upper n (List.mem_range.mpr hn)

theorem isBlank_digitChar (upper : Bool) (n : Nat) (hn : n < 16) :
    Bytes.isBlank (digitChar upper n) = false := by
  have all : ∀ upper : Bool, ∀ n ∈ List.range 16,
      Bytes.isBlank (digitChar upper n) = false := by decide
  exact all upper n (List.mem_range.mpr hn)

theorem eq_digitChar_of_digit? {c d : UInt8} (h : digit? c = some d) :
    d.toNat < 16 ∧ ∃ upper, c = digitChar upper d.toNat := by
  have hc := c.toNat_lt
  unfold digit? at h
  split_ifs at h with h1 h2 h3 <;> simp only [Option.some.injEq] at h <;> subst h
  · have hd := UInt8.toNat_sub_of_le c 48 h1.1
    simp only [UInt8.le_iff_toNat_le, UInt8.reduceToNat] at h1 hd
    refine ⟨by omega, true, UInt8.toNat_inj.mp ?_⟩
    rw [hd, digitChar, if_pos (by omega), UInt8.toNat_ofNat']
    omega
  · have hd := UInt8.toNat_sub_of_le c 55 (UInt8.le_trans (by decide) h2.1)
    simp only [UInt8.le_iff_toNat_le, UInt8.reduceToNat] at h2 hd
    refine ⟨by omega, true, UInt8.toNat_inj.mp ?_⟩
    rw [hd, digitChar, if_neg (by omega), if_pos rfl, UInt8.toNat_ofNat']
    omega
  · have hd := UInt8.toNat_sub_of_le c 87 (UInt8.le_trans (by decide) h3.1)
    simp only [UInt8.le_iff_toNat_le, UInt8.reduceToNat] at h3 hd
    refine ⟨by omega, false, UInt8.toNat_inj.mp ?_⟩
    rw [hd, digitChar, if_neg (by omega), if_neg (by simp), UInt8.toNat_ofNat']
    omega

theorem byte_halves (b : UInt8) :
    16 * UInt8.ofNat (b.toNat / 16) + UInt8.ofNat (b.toNat % 16) = b := by
  have hb := b.toNat_lt
  apply UInt8.toNat_inj.mp
  simp only [UInt8.toNat_add, UInt8.toNat_mul, UInt8.toNat_ofNat', UInt8.reduceToNat]
  omega

theorem Spells.decodePairs {field bytes : Bytes} (h : Spells field bytes) (position : Nat) :
    decodePairs position field = .ok bytes := by
  induction h generalizing position with
  | nil => rfl
  | cons u v b tail ih =>
    have hb := b.toNat_lt
    simp only [Hex.decodePairs, digit?_digitChar u _ (show b.toNat / 16 < 16 by omega),
      digit?_digitChar v _ (show b.toNat % 16 < 16 by omega), ih, byte_halves]
    rfl

theorem Spells.length {field bytes : Bytes} (h : Spells field bytes) :
    field.length = 2 * bytes.length := by
  induction h with
  | nil => rfl
  | cons u v b tail ih =>
    simp only [List.length_cons, ih]
    omega

theorem Spells.decode {field bytes : Bytes} (h : Spells field bytes) :
    Hex.decode field = .ok bytes := by
  rw [Hex.decode, if_neg (by rw [h.length]; omega), h.decodePairs]

theorem Spells.pair {high low h l : UInt8} (hh : digit? high = some h) (hl : digit? low = some l)
    {field bytes : Bytes} (tail : Spells field bytes) :
    Spells (high :: low :: field) ((16 * h + l) :: bytes) := by
  obtain ⟨hh', u, rfl⟩ := eq_digitChar_of_digit? hh
  obtain ⟨hl', v, rfl⟩ := eq_digitChar_of_digit? hl
  have hsum : (16 * h + l).toNat = 16 * h.toNat + l.toNat := by
    simp only [UInt8.toNat_add, UInt8.toNat_mul, UInt8.reduceToNat]
    omega
  have hhigh : (16 * h + l).toNat / 16 = h.toNat := by omega
  have hlow : (16 * h + l).toNat % 16 = l.toNat := by omega
  have hspell := Spells.cons u v (16 * h + l) tail
  rwa [hhigh, hlow] at hspell

theorem spells_of_decodePairs {position : Nat} {field bytes : Bytes} (heven : field.length % 2 = 0)
    (h : Hex.decodePairs position field = .ok bytes) : Spells field bytes := by
  fun_induction Hex.decodePairs position field generalizing bytes with
  | case1 position high low rest hhigh => cases h
  | case2 position high low rest hi hhigh hlow => cases h
  | case3 position high low rest h' l' hlow hhigh ih =>
    cases hrest : Hex.decodePairs (position + 2) rest with
    | error e => rw [hrest] at h; cases h
    | ok tail =>
      rw [hrest] at h
      cases h
      simp only [List.length_cons] at heven
      exact .pair hhigh hlow (ih (by omega) hrest)
  | case4 field position hpairs =>
    cases h
    cases field with
    | nil => exact .nil
    | cons high rest =>
      cases rest with
      | nil => simp at heven
      | cons low rest => exact absurd rfl (hpairs high low rest)

/-- A field is read as the bytes that it spells, and is refused if it spells none. -/
theorem decode_eq_ok_iff {field bytes : Bytes} :
    Hex.decode field = .ok bytes ↔ Spells field bytes := by
  constructor
  · intro h
    unfold Hex.decode at h
    split_ifs at h with hodd
    exact spells_of_decodePairs (by omega) h
  · exact Spells.decode

theorem Spells.append_inv {field xs ys : Bytes} (h : Spells field (xs ++ ys)) :
    ∃ f g, field = f ++ g ∧ Spells f xs ∧ Spells g ys := by
  induction xs generalizing field with
  | nil => exact ⟨[], field, rfl, .nil, h⟩
  | cons x xs ih =>
    cases h with
    | cons u v b tail =>
      obtain ⟨f, g, rfl, hf, hg⟩ := ih tail
      exact ⟨_ :: _ :: f, g, rfl, .cons u v x hf, hg⟩

theorem Spells.not_blank {field bytes : Bytes} (h : Spells field bytes) :
    ∀ c ∈ field, Bytes.isBlank c = false := by
  induction h with
  | nil => simp
  | cons u v b tail ih =>
    have hb := b.toNat_lt
    intro c hc
    simp only [List.mem_cons] at hc
    rcases hc with rfl | rfl | hc
    · exact isBlank_digitChar u _ (by omega)
    · exact isBlank_digitChar v _ (by omega)
    · exact ih c hc

theorem Spells.unique {field xs ys : Bytes} (hx : Spells field xs) (hy : Spells field ys) :
    xs = ys := Except.ok.inj (hx.decode.symm.trans hy.decode)

theorem Spells.append {f g xs ys : Bytes} (hx : Spells f xs) (hy : Spells g ys) :
    Spells (f ++ g) (xs ++ ys) := by
  induction hx with
  | nil => exact hy
  | cons u v b tail ih => exact .cons u v b ih

theorem Spells.split {f g bytes : Bytes} (h : Spells (f ++ g) bytes) (heven : f.length % 2 = 0) :
    ∃ xs ys, bytes = xs ++ ys ∧ Spells f xs ∧ Spells g ys := by
  generalize hn : f.length / 2 = n
  induction n generalizing f bytes with
  | zero =>
    obtain rfl : f = [] := List.eq_nil_of_length_eq_zero (by omega)
    exact ⟨[], bytes, rfl, .nil, h⟩
  | succ n ih =>
    match f with
    | [] => simp at hn
    | [_] => simp at heven
    | high :: low :: f =>
      simp only [List.length_cons] at heven hn
      cases h with
      | cons u v b tail =>
        obtain ⟨xs, ys, rfl, hf, hg⟩ := ih tail (by omega) (by omega)
        exact ⟨b :: xs, ys, rfl, .cons u v b hf, hg⟩

theorem Spells.at_pair {f g bytes : Bytes} {high low : UInt8}
    (h : Spells (f ++ high :: low :: g) bytes) (heven : f.length % 2 = 0) :
    ∃ xs b ys, bytes = xs ++ b :: ys ∧ Spells f xs ∧ Spells [high, low] [b] ∧ Spells g ys := by
  obtain ⟨xs, rest, rfl, hf, hrest⟩ := h.split heven
  cases hrest with
  | cons u v b tail => exact ⟨xs, b, _, rfl, hf, .cons u v b .nil, tail⟩

end HexBench.Hex
