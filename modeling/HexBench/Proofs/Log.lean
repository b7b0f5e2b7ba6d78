import HexBench.Log
import HexBench.Proofs.Text.Numeral

set_option autoImplicit false

namespace HexBench

open Numeral (Decimal readUnsigned readUnsigned_eq_ok_iff)

theorem toLower_of_isDigit {c : Char} (h : c.isDigit = true) : c.toLower = c := by
  simp only [Char.isDigit, Bool.and_eq_true, decide_eq_true_eq] at h
  have hlower : ¬ 'A'.val ≤ c.val := fun hupper =>
    absurd (UInt32.le_trans hupper h.2) (by decide)
  exact dif_neg fun hupper => hlower hupper.1

theorem not_decimal_of_lower {text : String} {first : Char} {rest : List Char}
    (h : text.toList.map Char.toLower = first :: rest) (hdigit : first.isDigit = false)
    (hplus : first ≠ '+') (n : Nat) : ¬ Decimal text n := by
  rintro (hdigits | ⟨digits, htext, _⟩)
  · cases htext : text.toList with
    | nil => exact hdigits.ne_nil htext
    | cons c more =>
      rw [htext] at h hdigits
      obtain ⟨hc, _⟩ := List.cons.inj h
      rw [toLower_of_isDigit hdigits.head] at hc
      rw [← hc, hdigits.head] at hdigit
      cases hdigit
  · rw [htext] at h
    exact hplus (List.cons.inj h).1.symm

namespace Level

theorem mem_all (l : Level) : l ∈ all := by cases l <;> decide

theorem number_injective {l l' : Level} (h : l.number = l'.number) : l = l' := by
  cases l <;> cases l' <;> first | rfl | cases h

theorem name_injective {l l' : Level} (h : l.name = l'.name) : l = l' := by
  cases l <;> cases l' <;> first | rfl | exact absurd h (by decide)

theorem find?_all_eq_some_iff {p : Level → Bool}
    (hunique : ∀ l l', p l = true → p l' = true → l = l') {l : Level} :
    all.find? p = some l ↔ p l = true := by
  refine ⟨List.find?_some, fun hl => ?_⟩
  cases hfind : all.find? p with
  | none => exact absurd hl (List.find?_eq_none.mp hfind l l.mem_all)
  | some l' => rw [hunique l' l (List.find?_some hfind) hl]

theorem not_decimal_of_name {text : String} {l : Level}
    (h : text.toList.map Char.toLower = l.name.toList) (n : Nat) : ¬ Decimal text n := by
  have hname : ∃ c rest, l.name.toList = c :: rest ∧ c.isDigit = false ∧ c ≠ '+' := by
    cases l <;> exact ⟨_, _, rfl, by decide, by decide⟩
  obtain ⟨first, rest, hfirst, hdigit, hplus⟩ := hname
  exact not_decimal_of_lower (h.trans hfirst) hdigit hplus n

/-- A level is read from its number, which may have a sign and zeros in front, and from its name in
any case. -/
theorem read?_eq_some_iff {text : String} {l : Level} : read? text = some l ↔
    Decimal text l.number ∨ text.toList.map Char.toLower = l.name.toList := by
  have hsmall : l.number < 2 ^ 64 := by cases l <;> decide
  rw [read?]
  cases hread : readUnsigned 64 text with
  | ok n =>
    have hdecimal : Decimal text l.number ↔ l.number = n := by
      constructor
      · intro h
        have hok := readUnsigned_eq_ok_iff.mpr ⟨h, hsmall⟩
        exact Except.ok.inj (hok.symm.trans hread)
      · rintro rfl
        exact (readUnsigned_eq_ok_iff.mp hread).1
    have hname : text.toList.map Char.toLower ≠ l.name.toList := fun h =>
      not_decimal_of_name h n (readUnsigned_eq_ok_iff.mp hread).1
    have hunique (l l' : Level) (h : (l.number == n) = true) (h' : (l'.number == n) = true) :
        l = l' := number_injective ((eq_of_beq h).trans (eq_of_beq h').symm)
    rw [find?_all_eq_some_iff hunique, or_iff_left hname, hdecimal, beq_iff_eq]
  | error e =>
    have hnumber : ¬ Decimal text l.number := fun h => by
      rw [readUnsigned_eq_ok_iff.mpr ⟨h, hsmall⟩] at hread
      cases hread
    have hunique (l l' : Level) (h : (l.name.toList == text.toList.map Char.toLower) = true)
        (h' : (l'.name.toList == text.toList.map Char.toLower) = true) : l = l' :=
      name_injective (String.toList_inj.mp ((eq_of_beq h).trans (eq_of_beq h').symm))
    rw [find?_all_eq_some_iff hunique, or_iff_right hnumber, beq_iff_eq, eq_comm]

end Level

theorem LogFilter.read?_of_level {text : String} {l : Level} (h : Level.read? text = some l) :
    LogFilter.read? text = some l.filter := by
  have hspells := Level.read?_eq_some_iff.mp h
  have hempty : text.isEmpty = false := by
    rw [Bool.eq_false_iff]
    intro hempty
    obtain rfl := String.isEmpty_iff.mp hempty
    rcases hspells with hdecimal | hname
    · rw [Numeral.decimal_plain (by simp)] at hdecimal
      exact hdecimal.ne_nil rfl
    · revert hname
      cases l <;> decide
  have hoff : text.toList.map Char.toLower ≠ "off".toList := by
    intro hoff
    rcases hspells with hdecimal | hname
    · exact not_decimal_of_lower hoff (by decide) (by decide) l.number hdecimal
    · rw [hoff] at hname
      revert hname
      cases l <;> decide
  rw [read?, hempty, if_neg Bool.false_ne_true, if_neg hoff, h]
  rfl

end HexBench
