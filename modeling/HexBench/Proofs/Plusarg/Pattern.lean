import HexBench.Plusarg
import Mathlib.Data.List.TakeWhile

set_option autoImplicit false

namespace HexBench

inductive Pattern where
  | one (accepts : Char → Bool)
  | many (accepts : Char → Bool)
  | seq (p q : Pattern)
  | optional (p : Pattern)
  | group (p : Pattern)

namespace Pattern

def groups : Pattern → Nat
  | one _ | many _ => 0
  | seq p q => p.groups + q.groups
  | optional p => p.groups
  | group p => p.groups + 1

/-- The whole text matches, and the groups hold these parts of it, in the order in which they are
opened. A group that is passed over holds nothing. -/
def Matches : Pattern → List Char → List (Option (List Char)) → Prop
  | one accepts, text, held => (∃ c, accepts c = true ∧ text = [c]) ∧ held = []
  | many accepts, text, held => (∀ c ∈ text, accepts c = true) ∧ held = []
  | seq p q, text, held =>
    ∃ s t g h, text = s ++ t ∧ held = g ++ h ∧ p.Matches s g ∧ q.Matches t h
  | optional p, text, held => p.Matches text held ∨ text = [] ∧ held = List.replicate p.groups none
  | group p, text, held => ∃ inner, p.Matches text inner ∧ held = some text :: inner

end Pattern

namespace Plusarg

def tail (p : Plusarg) : String :=
  match p.value with
  | none => ""
  | some value => "=" ++ value

def text (p : Plusarg) : String := "+" ++ p.name ++ p.tail

/-- The name is not empty and holds no equals sign; the value, if there is one, holds no line
feed. -/
structure WellFormed (p : Plusarg) : Prop where
  name_ne_empty : p.name ≠ ""
  name_plain : '=' ∉ p.name.toList
  value_plain : ∀ value ∈ p.value, '\n' ∉ value.toList

theorem toList_text (p : Plusarg) : p.text.toList = '+' :: (p.name.toList ++ p.tail.toList) := by
  rw [text, String.toList_append, String.toList_append, List.append_assoc]
  rfl

theorem toList_tail_setting (name value : String) :
    (tail ⟨name, some value⟩).toList = '=' :: value.toList :=
  String.toList_append

theorem toList_text_flag (name : List Char) :
    (text ⟨String.ofList name, none⟩).toList = '+' :: name := by
  rw [toList_text, String.toList_ofList]
  exact congrArg (List.cons '+') (List.append_nil name)

theorem toList_text_setting (name value : List Char) :
    (text ⟨String.ofList name, some (String.ofList value)⟩).toList =
      '+' :: (name ++ '=' :: value) := by
  rw [toList_text, toList_tail_setting, String.toList_ofList, String.toList_ofList]

theorem wellFormed_ofList {name : List Char} (value : Option (List Char)) (hne : name ≠ [])
    (hname : '=' ∉ name) (hvalue : ∀ v ∈ value, '\n' ∉ v) :
    WellFormed ⟨String.ofList name, value.map String.ofList⟩ := by
  refine ⟨mt String.ofList_eq_empty_iff.mp hne, by rwa [String.toList_ofList], ?_⟩
  intro text htext
  obtain ⟨v, hv, rfl⟩ := Option.map_eq_some_iff.mp htext
  rw [String.toList_ofList]
  exact hvalue v hv

theorem forall_ne_iff_notMem {text : List Char} {d : Char} :
    (∀ c ∈ text, decide (c ≠ d) = true) ↔ d ∉ text := by
  simp only [decide_eq_true_iff]
  exact ⟨fun hne hd => hne d hd rfl, fun hd c hc hsame => hd (hsame ▸ hc)⟩

theorem cut_behind_name (rest : List Char) {name : List Char} (hname : '=' ∉ name)
    (hrest : ∀ c ∈ rest.head?, c = '=') :
    (name ++ rest).takeWhile (· ≠ '=') = name ∧ (name ++ rest).dropWhile (· ≠ '=') = rest := by
  have hall : ∀ c ∈ name, decide (c ≠ '=') = true := forall_ne_iff_notMem.mpr hname
  rw [List.takeWhile_append_of_pos hall, List.dropWhile_append_of_pos hall]
  cases rest with
  | nil => exact ⟨List.append_nil name, rfl⟩
  | cons c rest =>
    obtain rfl := hrest c rfl
    exact ⟨List.append_nil name, rfl⟩

theorem exists_cut (text : List Char) : ∃ name rest, text = name ++ rest ∧ '=' ∉ name ∧
    ∀ c ∈ rest.head?, c = '=' := by
  induction text with
  | nil => exact ⟨[], [], rfl, List.not_mem_nil, nofun⟩
  | cons c text ih =>
    obtain ⟨name, rest, rfl, hname, hrest⟩ := ih
    by_cases hc : c = '='
    · exact ⟨[], c :: (name ++ rest), rfl, List.not_mem_nil, fun d hd => Option.some.inj hd ▸ hc⟩
    · exact ⟨c :: name, rest, rfl, List.not_mem_cons_of_ne_of_not_mem (Ne.symm hc) hname, hrest⟩

theorem ofArgument?_text {p : Plusarg} (h : p.WellFormed) : ofArgument? p.text = some p := by
  obtain ⟨name, value⟩ := p
  have hname : name.toList.isEmpty = false :=
    List.isEmpty_eq_false_iff.mpr fun hempty => h.name_ne_empty (String.toList_eq_nil_iff.mp hempty)
  rw [ofArgument?, toList_text]
  cases value with
  | none =>
    obtain ⟨htake, hdrop⟩ := cut_behind_name [] h.name_plain nofun
    simp only [tail, String.toList_empty, htake, hdrop, hname, Bool.false_eq_true, if_false,
      String.ofList_toList]
  | some value =>
    obtain ⟨htake, hdrop⟩ := cut_behind_name ('=' :: value.toList) h.name_plain (by simp)
    have hvalue : value.toList.contains '\n' = false := by
      simpa using h.value_plain value rfl
    simp only [toList_tail_setting, htake, hdrop, hname, hvalue, Bool.false_eq_true, if_false,
      String.ofList_toList]

theorem wellFormed_of_ofArgument? {argument : String} {p : Plusarg}
    (h : ofArgument? argument = some p) : p.WellFormed ∧ p.text = argument := by
  rw [ofArgument?] at h
  split at h
  · rename_i text hplus
    obtain ⟨name, rest, rfl, hname, hrest⟩ := exists_cut text
    obtain ⟨htake, hdrop⟩ := cut_behind_name rest hname hrest
    simp only [htake, hdrop] at h
    split_ifs at h with hempty
    have hne : name ≠ [] := mt List.isEmpty_iff.mpr hempty
    rw [← String.toList_inj, hplus]
    cases rest with
    | nil =>
      obtain rfl := Option.some.inj h
      rw [List.append_nil]
      exact ⟨wellFormed_ofList none hne hname nofun, toList_text_flag name⟩
    | cons c value =>
      obtain rfl := hrest c rfl
      dsimp only at h
      split_ifs at h with hfeed
      obtain rfl := Option.some.inj h
      have hvalue : ∀ v ∈ some value, '\n' ∉ v := by
        intro v hv
        obtain rfl := Option.some.inj hv
        simpa using hfeed
      exact ⟨wellFormed_ofList (some value) hne hname hvalue, toList_text_setting name value⟩
  · cases h

theorem ofArgument?_eq_some_iff {argument : String} {p : Plusarg} :
    ofArgument? argument = some p ↔ p.WellFormed ∧ p.text = argument := by
  constructor
  · exact wellFormed_of_ofArgument?
  · rintro ⟨hp, rfl⟩
    exact ofArgument?_text hp

section Pattern

def namePattern : Pattern := .seq (.one (· ≠ '=')) (.many (· ≠ '='))

def valuePattern : Pattern := .seq (.one (· = '=')) (.group (.many (· ≠ '\n')))

def pattern : Pattern :=
  .seq (.one (· = '+')) (.seq (.group namePattern) (.optional valuePattern))

def held (p : Plusarg) : List (Option (List Char)) :=
  [some p.name.toList, p.value.map String.toList]

theorem matches_namePattern {text : List Char} {held : List (Option (List Char))} :
    namePattern.Matches text held ↔ (text ≠ [] ∧ '=' ∉ text) ∧ held = [] := by
  constructor
  · rintro ⟨_, rest, _, _, rfl, rfl, ⟨⟨c, hc, rfl⟩, rfl⟩, hrest, rfl⟩
    have hplain : '=' ∉ c :: rest :=
      forall_ne_iff_notMem.mp (List.forall_mem_cons.mpr ⟨hc, hrest⟩)
    exact ⟨⟨List.cons_ne_nil c rest, hplain⟩, rfl⟩
  · rintro ⟨⟨hne, hplain⟩, rfl⟩
    obtain ⟨c, rest, rfl⟩ := List.exists_cons_of_ne_nil hne
    obtain ⟨hc, hrest⟩ := List.forall_mem_cons.mp (forall_ne_iff_notMem.mpr hplain)
    exact ⟨[c], rest, [], [], rfl, rfl, ⟨⟨c, hc, rfl⟩, rfl⟩, hrest, rfl⟩

theorem matches_valuePattern {text : List Char} {held : List (Option (List Char))} :
    valuePattern.Matches text held ↔
      ∃ value, '\n' ∉ value ∧ text = '=' :: value ∧ held = [some value] := by
  constructor
  · rintro ⟨_, value, _, _, rfl, rfl, ⟨⟨c, hc, rfl⟩, rfl⟩, _, ⟨hvalue, rfl⟩, rfl⟩
    obtain rfl := of_decide_eq_true hc
    exact ⟨value, forall_ne_iff_notMem.mp hvalue, rfl, rfl⟩
  · rintro ⟨value, hvalue, rfl, rfl⟩
    have haccepts : ∀ c ∈ value, decide (c ≠ '\n') = true := forall_ne_iff_notMem.mpr hvalue
    exact ⟨['='], value, [], _, rfl, rfl, ⟨⟨'=', rfl, rfl⟩, rfl⟩, [], ⟨haccepts, rfl⟩, rfl⟩

/-- The pattern matches the plusargs and nothing else, and each of them in one way only. -/
theorem matches_pattern_iff {argument : String} {groups : List (Option (List Char))} :
    pattern.Matches argument.toList groups ↔
      ∃ p, ofArgument? argument = some p ∧ groups = p.held := by
  simp only [ofArgument?_eq_some_iff]
  constructor
  · rintro ⟨_, _, _, _, hargument, rfl, ⟨⟨c, hc, rfl⟩, rfl⟩, name, rest, _, g, rfl, rfl,
      ⟨inner, hname, rfl⟩, hrest⟩
    obtain rfl := of_decide_eq_true hc
    obtain ⟨⟨hne, hplain⟩, rfl⟩ := matches_namePattern.mp hname
    rcases hrest with hvalue | ⟨rfl, rfl⟩
    · obtain ⟨value, hfeed, rfl, rfl⟩ := matches_valuePattern.mp hvalue
      have hvalue : ∀ v ∈ some value, '\n' ∉ v := by
        intro v hv
        obtain rfl := Option.some.inj hv
        exact hfeed
      refine ⟨_, ⟨wellFormed_ofList (some value) hne hplain hvalue, ?_⟩, by simp [held]⟩
      exact String.toList_inj.mp ((toList_text_setting name value).trans hargument.symm)
    · rw [List.append_nil] at hargument
      refine ⟨_, ⟨wellFormed_ofList none hne hplain nofun, ?_⟩, ?_⟩
      · exact String.toList_inj.mp ((toList_text_flag name).trans hargument.symm)
      · simp [held, valuePattern, Pattern.groups]
  · rintro ⟨⟨name, value⟩, ⟨hp, rfl⟩, rfl⟩
    have hne : name.toList ≠ [] := mt String.toList_eq_nil_iff.mp hp.name_ne_empty
    have hname : namePattern.Matches name.toList [] :=
      matches_namePattern.mpr ⟨⟨hne, hp.name_plain⟩, rfl⟩
    refine ⟨['+'], name.toList ++ (tail ⟨name, value⟩).toList, [], _, toList_text _, rfl,
      ⟨⟨'+', rfl, rfl⟩, rfl⟩, name.toList, _, [some name.toList], _, rfl, rfl,
      ⟨[], hname, rfl⟩, ?_⟩
    cases value with
    | none => exact .inr ⟨by simp [tail], rfl⟩
    | some value =>
      exact .inl (matches_valuePattern.mpr
        ⟨value.toList, hp.value_plain value rfl, toList_tail_setting name value, rfl⟩)

end Pattern

end Plusarg

end HexBench
